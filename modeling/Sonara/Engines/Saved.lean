import Sonara.Engines.Taken

/-!
# A save loses no entry of the file

A save writes what is in memory, so what it does to the file depends on whether the
memory holds what the file held. `Shows t raws` relates a text of the file to the
entries a runtime knows of it: those a read of it takes in, or those it wrote itself.
The memory is in step (`InStep`) when it shows the text last seen; a load, a read and a
successful save put it in step, and only a failed save puts it out (`Steady.inStep`).
-/

namespace Sonara.Engines

open Profile (field_putField field_putField_of_ne fromJson_spec)
open Lib (bind_ok mapError_ok elim_ok)

variable (R : Rules)

/-- The entries a read of the text takes in; a text that is no JSON counts as empty. -/
def shown (text : Option Text) : List Json :=
  match parseFile R text with
  | .ok (raws, _) => taken raws
  | .error _ => []

/-- The file's text holds the entries: a read takes them in, or a save wrote them. -/
def Shows (text : Option Text) (raws : List Json) : Prop :=
  shown R text = raws ∨ text = some (R.print (document raws))

/-- The entries in memory are those of the text last seen. -/
def InStep (rt : Runtime) : Prop := Shows R rt.seen (rt.entries.map (·.raw))

/-- A call of a protocol client. -/
inductive Call where
  | add (engine : Json) (secret : Option Text) (replace : Bool)
  | remove (id : Text) (forgetKey : Bool)
  | reload
  | setKey (env : Env) (id : Text) (secret : Option Text)

/-- The answer to a call (whether it succeeded), and the runtime after it. -/
def Call.run (c : Call) (fails : Option Text) (rt : Runtime) : Except Failure Unit × Runtime :=
  match c with
  | .add engine secret replace =>
    let r := Engines.add R engine secret replace fails rt
    (r.1.map fun _ => (), r.2)
  | .remove id forgetKey => Engines.remove R id forgetKey fails rt
  | .reload =>
    let r := Engines.reload R rt
    (r.1.map fun _ => (), r.2)
  | .setKey env id secret =>
    let r := Engines.setKey R env id secret rt
    (r.1.map fun _ => (), r.2)

/-- The call reads the file or writes it. -/
def Call.ofFile : Call → Bool
  | .setKey .. => false
  | _ => true

/-- The runtimes of any run: loaded, called, the file edited by others. -/
inductive Reached : Runtime → Prop
  | load (home : Home) (keys : Store) (copied : Bool) (fails : Option Text) :
      Reached (load R home keys copied fails).2
  | call {rt : Runtime} (c : Call) (fails : Option Text) : Reached rt →
      Reached (c.run R fails rt).2
  | edit {rt : Runtime} (file : Option Content) : Reached rt →
      Reached { rt with home := { rt.home with file } }

/-- The runtimes of the runs in which no save failed since the file was last read or
saved. -/
inductive Steady : Runtime → Prop
  | load (home : Home) (keys : Store) (copied : Bool) : Steady (load R home keys copied none).2
  | read {rt : Runtime} (c : Call) (fails : Option Text) : Reached R rt → c.ofFile = true →
      (c.run R fails rt).1 = .ok () → Steady (c.run R fails rt).2
  | call {rt : Runtime} (c : Call) : Steady rt → Steady (c.run R none rt).2
  | edit {rt : Runtime} (file : Option Content) : Steady rt →
      Steady { rt with home := { rt.home with file } }

variable {R}

theorem Steady.reached {rt : Runtime} (h : Steady R rt) : Reached R rt := by
  induction h with
  | load home keys copied => exact .load home keys copied none
  | read c fails hr _ _ => exact .call c fails hr
  | call c _ ih => exact .call c none ih
  | edit file _ ih => exact .edit file ih

/-- A save that does not fail. -/
theorem save_none (entries : List Entry) (rt : Runtime) :
    save R entries none rt = (.ok (),
      { rt with
        home := { rt.home with
          file := some (.text (R.print (document (entries.map (·.raw))))) }
        seen := some (R.print (document (entries.map (·.raw)))) }) := rfl

theorem reload_error {rt : Runtime} {why : Text}
    (h : parseFile R (readText rt.home.file) = .error why) :
    reload R rt = (.error (bad (why ++ txt "; nothing changed")), rt) := by
  simp only [reload, h]

theorem reload_ok {rt : Runtime} {raws : List Json} {legacy : Bool}
    (h : parseFile R (readText rt.home.file) = .ok (raws, legacy)) :
    reload R rt = (.ok (entriesFrom R raws rt.entries).2,
      { rt with
        keys := raws.foldl (fun keys raw => dropKeyBoundElsewhere R raw keys) rt.keys
        entries := (entriesFrom R raws rt.entries).1
        seen := readText rt.home.file }) := by
  simp only [reload, h]

/-- A reload leaves the file; when it succeeds the memory shows the file. -/
theorem reload_spec (rt : Runtime) :
    (∃ e, reload R rt = (.error e, rt)) ∨
    ∃ problems keys entries, reload R rt =
        (.ok problems, { rt with keys, entries, seen := readText rt.home.file }) ∧
      Indexed entries ∧ entries.map (·.raw) = shown R (readText rt.home.file) ∧
      ∃ read, parseFile R (readText rt.home.file) = .ok read := by
  cases hp : parseFile R (readText rt.home.file) with
  | error why => exact .inl ⟨_, reload_error hp⟩
  | ok read =>
    obtain ⟨raws, legacy⟩ := read
    have hs : shown R (readText rt.home.file) = taken raws := by
      simp only [shown, hp]
    exact .inr ⟨_, _, _, reload_ok hp, entriesFrom_indexed raws rt.entries,
      (entriesFrom_raws raws rt.entries).trans hs.symm, _, rfl⟩

/-- What the reading before a save leaves: an error and nothing changed, the runtime as
it was because the file is the one last seen, or the file read again. -/
theorem takeInFileChanges_spec (rt : Runtime) :
    (∃ e, takeInFileChanges R rt = (.error e, rt)) ∨
    (takeInFileChanges R rt = (.ok (), rt) ∧ rt.seen = readText rt.home.file) ∨
    ∃ keys entries, takeInFileChanges R rt =
        (.ok (), { rt with keys, entries, seen := readText rt.home.file }) ∧
      Indexed entries ∧ entries.map (·.raw) = shown R (readText rt.home.file) ∧
      rt.seen ≠ readText rt.home.file ∧ ∃ read, parseFile R (readText rt.home.file) = .ok read := by
  unfold takeInFileChanges
  by_cases hs : rt.seen = readText rt.home.file
  · rw [if_neg (fun hn => hn hs)]
    exact .inr (.inl ⟨rfl, hs⟩)
  · rw [if_pos hs]
    rcases reload_spec (R := R) rt with ⟨e, he⟩ | ⟨problems, keys, entries, he, hi, hr, hp⟩
    · rw [he]
      exact .inl ⟨e, rfl⟩
    · rw [he]
      exact .inr (.inr ⟨keys, entries, rfl, hi, hr, hs, hp⟩)

/-- An added profile is stored under its id. -/
theorem idOf_stored (p : Profile) (old : Option Json) : idOf (stored R p old) = some p.id := by
  have hj : idOf p.toJson = some p.id := by
    show ((Json.field (txt "id") _).bind Json.asStr) = some p.id
    rw [field_putField_of_ne (by decide), field_putField_of_ne (by decide),
      field_putField_of_ne (by decide), field_putField_of_ne (by decide),
      field_putField_of_ne (by decide), field_putField_of_ne (by decide),
      field_putField_of_ne (by decide), field_putField_of_ne (by decide), field_putField]
    rfl
  unfold stored
  split
  · dsimp only
    split
    next c m hc hm =>
      show ((Json.field (txt "id") (Json.insert KEY_ORIGIN _ m)).bind Json.asStr) = some p.id
      rw [Json.field_insert_of_ne (by decide)]
      rw [hm] at hj
      exact hj
    next => exact hj
  · exact hj

/-- A runtime after its file was looked at: the file is as it was, and the memory is too,
or shows the file. -/
structure Took (rt rt' : Runtime) : Prop where
  home : rt'.home = rt.home
  memory : (rt'.entries = rt.entries ∧ rt'.seen = rt.seen) ∨
    (Indexed rt'.entries ∧ rt'.entries.map (·.raw) = shown R (readText rt.home.file) ∧
      rt'.seen = readText rt.home.file)

/-- How a call that edits the list of entries ends. -/
inductive Outcome (fails : Option Text) (edits : List Entry → List Entry → Prop)
    (rt : Runtime) : Except Failure Unit × Runtime → Prop
  | refused (e : Failure) {rt' : Runtime} : Took (R := R) rt rt' →
      Outcome fails edits rt (.error e, rt')
  | saved {rt₀ rt' : Runtime} : Took (R := R) rt rt₀ → rt₀.seen = readText rt.home.file →
      (∀ why, parseFile R (readText rt.home.file) = .error why →
        rt.seen = readText rt.home.file) →
      edits rt₀.entries rt'.entries →
      rt'.home.file = some (.text (R.print (document (rt'.entries.map (·.raw))))) →
      rt'.seen = some (R.print (document (rt'.entries.map (·.raw)))) →
      Outcome fails edits rt (.ok (), rt')
  | unsaved (e : Failure) {rt₀ rt' : Runtime} : fails ≠ none → Took (R := R) rt rt₀ →
      edits rt₀.entries rt'.entries → rt'.home = rt.home →
      Outcome fails edits rt (.error e, rt')

/-- The entry of `id` is put in its place. -/
def Puts (id : Text) (entries next : List Entry) : Prop :=
  ∃ e : Entry, e.id = id ∧ idOf e.raw = some id ∧ next = put e entries

/-- The entry of `id` is gone. -/
def Drops (id : Text) (entries next : List Entry) : Prop :=
  ∃ e, entryOf id entries = some e ∧ next = entries.erase e

/-- What an `engine_add` comes to: refused with nothing changed, or put and saved. -/
theorem addLocked_outcome (p : Profile) (secret : Option Text) (replace : Bool)
    (fails : Option Text) {rt rt₀ : Runtime} (ht : Took (R := R) rt rt₀)
    (hs : rt₀.seen = readText rt.home.file)
    (hj : ∀ why, parseFile R (readText rt.home.file) = .error why →
      rt.seen = readText rt.home.file) :
    Outcome (R := R) fails (Puts p.id) rt
      ((addLocked R p secret replace fails rt₀).1.map fun _ => (),
        (addLocked R p secret replace fails rt₀).2) := by
  have hkeys : ∀ keys, Took (R := R) rt { rt₀ with keys } := fun keys => ⟨ht.home, ht.memory⟩
  rw [addLocked]
  cases ha : admitted p.id replace rt₀.entries with
  | error e => exact .refused e ht
  | ok u =>
    dsimp only
    generalize bindKey R p secret rt₀.keys = bound
    obtain ⟨done, keys⟩ := bound
    cases done with
    | error e => exact .refused e (hkeys keys)
    | ok u =>
      dsimp only
      generalize hraw : stored R p ((entryOf p.id rt₀.entries).map (·.raw)) = raw
      have hid : idOf raw = some p.id := hraw ▸ idOf_stored p _
      cases build R raw with
      | error e => exact .refused _ (hkeys keys)
      | ok built =>
        have hputs : Puts p.id rt₀.entries (put ⟨p.id, raw, .ready built⟩ rt₀.entries) :=
          ⟨_, rfl, hid, rfl⟩
        cases fails with
        | none => exact .saved ht hs hj hputs rfl rfl
        | some e => exact .unsaved _ (Option.some_ne_none e) ht hputs ht.home

/-- A request whose checks passed names the id of its profile. -/
theorem withSecret_id {m m' : List (Text × Json)} {secret : Option Text}
    (h : withSecret m secret = .ok m') : Json.field (txt "id") m' = Json.field (txt "id") m := by
  cases secret with
  | none =>
    cases h
    rfl
  | some s =>
    obtain ⟨_, _, h⟩ := bind_ok h
    split at h
    · cases h
      exact Json.field_insert_of_ne (by decide) _ _
    · cases h
      exact Json.field_insert_of_ne (by decide) _ _
    · split at h
      · cases h
        rfl
      · split at h <;> cases h
    · cases h

/-- A request that is accepted is of the profile its id names. -/
theorem requested_id {engine : Json} {secret : Option Text} {entries : List Entry} {p : Profile}
    (h : requested R engine secret entries = .ok p) : idOf engine = some p.id := by
  unfold requested at h
  obtain ⟨m, hm, h⟩ := bind_ok h
  obtain ⟨_, _, h⟩ := bind_ok h
  obtain ⟨_, _, h⟩ := bind_ok h
  obtain ⟨m', hm', h⟩ := bind_ok h
  obtain ⟨p', hp, h⟩ := bind_ok h
  obtain ⟨_, _, h⟩ := bind_ok h
  cases h
  obtain ⟨q, hq, hp⟩ := bind_ok (mapError_ok hp)
  have hid := (fromJson_spec hq).1
  rw [withSecret_id hm'] at hid
  have hpq : q = p := by
    cases hc : R.checkNew q with
    | some e =>
      rw [hc] at hp
      cases hp
    | none =>
      rw [hc] at hp
      exact Except.ok.inj hp
  cases engine with
  | object fields =>
    cases elim_ok hm
    show (Json.field (txt "id") m).bind Json.asStr = _
    rw [hid, hpq]
    rfl
  | _ => cases elim_ok hm

/-- How `engine_add` ends. -/
theorem add_outcome (engine : Json) (secret : Option Text) (replace : Bool)
    (fails : Option Text) (rt : Runtime) :
    ∃ id, Outcome (R := R) fails (Puts id) rt
        ((add R engine secret replace fails rt).1.map fun _ => (),
          (add R engine secret replace fails rt).2) ∧
      ∀ b, (add R engine secret replace fails rt).1 = .ok b → idOf engine = some id := by
  unfold add
  cases hreq : requested R engine secret rt.entries with
  | error e =>
    refine ⟨[], .refused e ⟨rfl, .inl ⟨rfl, rfl⟩⟩, ?_⟩
    intro b hb
    cases hb
  | ok p =>
    refine ⟨p.id, ?_, fun _ _ => requested_id hreq⟩
    rcases takeInFileChanges_spec (R := R) rt with
      ⟨e, he⟩ | ⟨he, hs⟩ | ⟨keys, entries, he, hi, hr, hs, read, hread⟩
    · rw [he]
      exact .refused e ⟨rfl, .inl ⟨rfl, rfl⟩⟩
    · rw [he]
      exact addLocked_outcome p secret replace fails ⟨rfl, .inl ⟨rfl, rfl⟩⟩ hs fun _ _ => hs
    · rw [he]
      refine addLocked_outcome p secret replace fails ⟨rfl, .inr ⟨hi, hr, rfl⟩⟩ rfl ?_
      intro why hwhy
      rw [hread] at hwhy
      cases hwhy

/-- How `engine_remove` ends. -/
theorem remove_outcome (id : Text) (forgetKey : Bool) (fails : Option Text) (rt : Runtime) :
    Outcome (R := R) fails (Drops id) rt (remove R id forgetKey fails rt) := by
  have hlocked : ∀ rt₀ : Runtime, Took (R := R) rt rt₀ → rt₀.seen = readText rt.home.file →
      (∀ why, parseFile R (readText rt.home.file) = .error why →
        rt.seen = readText rt.home.file) →
      takeInFileChanges R rt = (.ok (), rt₀) →
      Outcome (R := R) fails (Drops id) rt (remove R id forgetKey fails rt) := by
    intro rt₀ ht hs hj he
    unfold remove
    rw [he]
    dsimp only
    cases hentry : entryOf id rt₀.entries with
    | none => exact .refused _ ht
    | some e =>
      have hdrops : Drops id rt₀.entries (rt₀.entries.erase e) := ⟨e, hentry, rfl⟩
      cases fails with
      | none => exact .saved ht hs hj hdrops rfl rfl
      | some e' => exact .unsaved _ (Option.some_ne_none e') ht hdrops ht.home
  rcases takeInFileChanges_spec (R := R) rt with
    ⟨e, he⟩ | ⟨he, hs⟩ | ⟨keys, entries, he, hi, hr, hs, read, hread⟩
  · unfold remove
    rw [he]
    exact .refused e ⟨rfl, .inl ⟨rfl, rfl⟩⟩
  · exact hlocked rt ⟨rfl, .inl ⟨rfl, rfl⟩⟩ hs (fun _ _ => hs) he
  · refine hlocked { rt with keys, entries, seen := readText rt.home.file }
      ⟨rfl, .inr ⟨hi, hr, rfl⟩⟩ rfl ?_ he
    intro why hwhy
    rw [hread] at hwhy
    cases hwhy

/-- A `set_key` works on the profiles as taken in from the file. -/
theorem setKey_took (env : Env) (id : Text) (secret : Option Text) (rt : Runtime) :
    Took (R := R) rt (setKey R env id secret rt).2 := by
  unfold setKey
  cases entryOf id rt.entries with
  | none => exact ⟨rfl, .inl ⟨rfl, rfl⟩⟩
  | some e =>
    dsimp only
    cases (keyPlace R e).1 with
    | env name => exact ⟨rfl, .inl ⟨rfl, rfl⟩⟩
    | none => exact ⟨rfl, .inl ⟨rfl, rfl⟩⟩
    | credMan =>
      dsimp only
      split
      · exact ⟨rfl, .inl ⟨rfl, rfl⟩⟩
      · exact ⟨rfl, .inl ⟨rfl, rfl⟩⟩
      · exact ⟨rfl, .inl ⟨rfl, rfl⟩⟩

theorem reload_took (rt : Runtime) : Took (R := R) rt (reload R rt).2 := by
  rcases reload_spec (R := R) rt with ⟨e, he⟩ | ⟨problems, keys, entries, he, hi, hr, _⟩
  · rw [he]
    exact ⟨rfl, .inl ⟨rfl, rfl⟩⟩
  · rw [he]
    exact ⟨rfl, .inr ⟨hi, hr, rfl⟩⟩

/-- How any call ends: it leaves the list of entries but for a read, or it is an edit of
one entry. -/
theorem Call.run_spec (c : Call) (fails : Option Text) (rt : Runtime) :
    Took (R := R) rt (c.run R fails rt).2 ∨
    (∃ id, Outcome (R := R) fails (Puts id) rt (c.run R fails rt)) ∨
    ∃ id, Outcome (R := R) fails (Drops id) rt (c.run R fails rt) := by
  cases c with
  | add engine secret replace =>
    obtain ⟨id, h, _⟩ := add_outcome (R := R) engine secret replace fails rt
    exact .inr (.inl ⟨id, h⟩)
  | remove id forgetKey => exact .inr (.inr ⟨id, remove_outcome id forgetKey fails rt⟩)
  | reload => exact .inl (reload_took rt)
  | setKey env id secret => exact .inl (setKey_took env id secret rt)

/-- What every run keeps of the entries. -/
theorem Took.indexed {rt rt' : Runtime} (h : Took (R := R) rt rt') (hi : Indexed rt.entries) :
    Indexed rt'.entries := by
  rcases h.memory with ⟨he, _⟩ | ⟨h, _⟩
  · rw [he]
    exact hi
  · exact h

theorem Took.inStep {rt rt' : Runtime} (h : Took (R := R) rt rt') (hs : InStep R rt) :
    InStep R rt' := by
  rcases h.memory with ⟨he, hseen⟩ | ⟨_, hraw, hseen⟩
  · unfold InStep
    rw [he, hseen]
    exact hs
  · exact .inl (by rw [hseen, hraw])

theorem Puts.indexed {id : Text} {entries next : List Entry} (h : Puts id entries next)
    (hi : Indexed entries) : Indexed next := by
  obtain ⟨e, he, hid, rfl⟩ := h
  exact hi.put (he ▸ hid)

theorem Drops.indexed {id : Text} {entries next : List Entry} (h : Drops id entries next)
    (hi : Indexed entries) : Indexed next := by
  obtain ⟨e, _, rfl⟩ := h
  exact hi.erase e

theorem Outcome.indexed {fails : Option Text} {edits : List Entry → List Entry → Prop}
    {rt : Runtime} {r : Except Failure Unit × Runtime} (h : Outcome (R := R) fails edits rt r)
    (he : ∀ {entries next}, edits entries next → Indexed entries → Indexed next)
    (hi : Indexed rt.entries) : Indexed r.2.entries := by
  cases h with
  | refused e ht => exact ht.indexed hi
  | saved ht _ _ hedit _ _ => exact he hedit (ht.indexed hi)
  | unsaved e _ ht hedit _ => exact he hedit (ht.indexed hi)

/-- A call that edits the list leaves the memory in step unless its save fails. -/
theorem Outcome.inStep {fails : Option Text} {edits : List Entry → List Entry → Prop}
    {rt : Runtime} {r : Except Failure Unit × Runtime} (h : Outcome (R := R) fails edits rt r)
    (hs : InStep R rt ∧ fails = none ∨ r.1 = .ok ()) : InStep R r.2 := by
  cases h with
  | refused e ht =>
    rcases hs with ⟨hs, _⟩ | hs
    · exact ht.inStep hs
    · cases hs
  | saved _ _ _ _ _ hseen => exact .inr hseen
  | unsaved e hf _ _ _ =>
    rcases hs with ⟨_, hf'⟩ | hs
    · exact absurd hf' hf
    · cases hs

theorem load_error {home : Home} {keys : Store} {copied : Bool} {fails : Option Text} {why : Text}
    (h : parseFile R (readText home.file) = .error why) :
    (load R home keys copied fails).2 =
      { home := { home with aside := if copied then home.file else home.aside }
        keys, entries := [], seen := readText home.file } := by
  simp only [load, h]

theorem load_ok {home : Home} {keys : Store} {copied : Bool} {fails : Option Text}
    {raws : List Json} (h : parseFile R (readText home.file) = .ok (raws, false)) :
    (load R home keys copied fails).2 =
      { home, keys, entries := (entriesFrom R raws []).1, seen := readText home.file } := by
  simp only [load, h]
  rfl

theorem load_legacy {home : Home} {keys : Store} {copied : Bool} {fails : Option Text}
    {raws : List Json} (h : parseFile R (readText home.file) = .ok (raws, true)) :
    (load R home keys copied fails).2 =
      (save R (entriesFrom R (migrate R raws keys).1 []).1 fails
        { home, keys := (migrate R raws keys).2.1
          entries := (entriesFrom R (migrate R raws keys).1 []).1
          seen := readText home.file }).2 := by
  simp only [load, h, if_true]
  cases fails <;> rfl

/-- The loaded entries have distinct ids. -/
theorem load_indexed (home : Home) (keys : Store) (copied : Bool) (fails : Option Text) :
    Indexed (load R home keys copied fails).2.entries := by
  cases hp : parseFile R (readText home.file) with
  | error why =>
    rw [load_error hp]
    exact .nil
  | ok read =>
    obtain ⟨raws, legacy⟩ := read
    cases legacy with
    | false =>
      rw [load_ok hp]
      exact entriesFrom_indexed raws []
    | true =>
      rw [load_legacy hp]
      cases fails with
      | none => exact entriesFrom_indexed _ []
      | some e => exact entriesFrom_indexed _ []

/-- A load without a failed write leaves memory and file in step. -/
theorem load_inStep (home : Home) (keys : Store) (copied : Bool) :
    InStep R (load R home keys copied none).2 := by
  cases hp : parseFile R (readText home.file) with
  | error why =>
    rw [load_error hp]
    exact .inl (by simp only [shown, hp, List.map_nil])
  | ok read =>
    obtain ⟨raws, legacy⟩ := read
    cases legacy with
    | false =>
      rw [load_ok hp]
      refine .inl ?_
      show shown R (readText home.file) = _
      simp only [shown, hp]
      exact (entriesFrom_raws raws []).symm
    | true =>
      rw [load_legacy hp]
      exact .inr rfl

theorem Reached.indexed {rt : Runtime} (h : Reached R rt) : Indexed rt.entries := by
  induction h with
  | load home keys copied fails => exact load_indexed home keys copied fails
  | call c fails _ ih =>
    rcases c.run_spec fails _ with h | ⟨id, h⟩ | ⟨id, h⟩
    · exact h.indexed ih
    · exact h.indexed Puts.indexed ih
    · exact h.indexed Drops.indexed ih
  | edit file _ ih => exact ih

/-- A call that read or wrote the file leaves the memory in step. -/
theorem Call.ofFile_inStep {c : Call} {fails : Option Text} {rt : Runtime}
    (hc : c.ofFile = true) (hok : (c.run R fails rt).1 = .ok ()) :
    InStep R (c.run R fails rt).2 := by
  cases c with
  | add engine secret replace =>
    obtain ⟨id, h, _⟩ := add_outcome (R := R) engine secret replace fails rt
    exact h.inStep (.inr hok)
  | remove id forgetKey => exact (remove_outcome id forgetKey fails rt).inStep (.inr hok)
  | reload =>
    rcases reload_spec (R := R) rt with ⟨e, he⟩ | ⟨problems, keys, entries, he, hi, hr, _⟩
    · have : (Call.run R .reload fails rt).1 = .error e := by
        show (Engines.reload R rt).1.map _ = _
        rw [he]
        rfl
      rw [this] at hok
      cases hok
    · show InStep R (Engines.reload R rt).2
      rw [he]
      exact .inl hr.symm
  | setKey env id secret => cases hc

theorem Steady.inStep {rt : Runtime} (h : Steady R rt) : InStep R rt := by
  induction h with
  | load home keys copied => exact load_inStep home keys copied
  | read c fails _ hc hok => exact c.ofFile_inStep hc hok
  | call c _ ih =>
    rcases c.run_spec none _ with h | ⟨id, h⟩ | ⟨id, h⟩
    · exact h.inStep ih
    · exact h.inStep (.inl ⟨ih, rfl⟩)
    · exact h.inStep (.inl ⟨ih, rfl⟩)
  | edit file _ ih => exact ih

end Sonara.Engines
