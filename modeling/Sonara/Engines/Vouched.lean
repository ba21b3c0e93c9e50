import Sonara.Engines.History

/-!
# Who vouches for an entry

An entry in memory, or in a file a save wrote, came from a file that another program wrote or from
a request. Two things of it only such a file can say: that it is a program (`kind: command`), and
the address a key of the environment is confirmed for (`key_origin`). `History.Local` says that the
history bears both out; a request's profile has neither, save the confirmation it takes over from
the entry it replaces (`Local.stored`), and what a save printed is read back (`Rules.ReadsBack`).
-/

namespace Sonara.Engines

open Sonara.Text
open Profile (field_putField field_putField_of_ne fromJson_spec)
open Lib (bind_ok mapError_ok elim_ok)

/-- What `serde_json` reads of the text it printed. -/
def Rules.ReadsBack (R : Rules) : Prop :=
  ∀ raws v, R.parse (R.print (document raws)) = .ok v →
    ∃ raws', v = document raws' ∧ List.Forall₂ Json.Like raws' raws

/-- An entry of a format 1 file with its address confirmed. -/
def confirmed (R : Rules) (raw : Json) : Json := (migrateEntry R raw ⟨fun _ => none, []⟩).1

namespace History

variable (R : Rules) (h : History)

/-- The key was entered for that address, or a start bound it to the address its entry had in a file
of format 1. -/
def Entered (id secret origin : Text) : Prop :=
  (id, ⟨secret, some origin⟩) ∈ h.given ∨
    (id, ⟨secret, none⟩) ∈ h.given ∧
      ∃ w ∈ h.written, w.legacy = true ∧ idOf w.raw = some id ∧ originOf R w.raw = some origin

/-- A file that another program wrote confirms the address for the key source of the engine. -/
def Confirms (id keyRef origin : Text) : Prop :=
  ∃ w ∈ h.written, idOf w.raw = some id ∧ w.raw.textOf (txt "key_ref") = some keyRef ∧
    (w.raw.textOf KEY_ORIGIN = some origin ∨
      w.legacy = true ∧ w.raw.get KEY_ORIGIN = none ∧ originOf R w.raw = some origin)

/-- A file that another program wrote has the entry. -/
def Wrote (raw : Json) : Prop :=
  ∃ w ∈ h.written, raw.Like w.raw ∨ w.legacy = true ∧ raw.Like (confirmed R w.raw)

/-- What only a file can say of an entry, a file said. -/
structure Local (raw : Json) : Prop where
  program : isCommand raw = true → h.Wrote R raw
  origin : ∀ id keyRef o, idOf raw = some id → raw.textOf (txt "key_ref") = some keyRef →
    raw.textOf KEY_ORIGIN = some o → h.Confirms R id keyRef o

/-- The file is as another program wrote it, or as a save did. -/
def OnDisk (text : Option Text) : Prop :=
  ∀ raws legacy, parseFile R text = .ok (raws, legacy) →
    (∀ raw ∈ raws, (⟨raw, legacy⟩ : Written) ∈ h.written) ∨ legacy = false ∧
      ∀ raw ∈ raws, h.Local R raw

end History

variable {R : Rules} {h h' : History} {raw raw' : Json}

/-! ## The entries of a file -/

/-- Confirming adds an origin where the entry has none, and nothing else. -/
theorem confirmed_cases (raw : Json) :
    confirmed R raw = raw ∨ ∃ m o, raw = .object m ∧ originOf R raw = some o ∧
    Json.field KEY_ORIGIN m = none ∧
      confirmed R raw = .object (Json.insert KEY_ORIGIN (.string o) m) := by
  unfold confirmed migrateEntry
  cases idOf raw with
  | none => exact .inl rfl
  | some id =>
    have hget : Store.get ⟨fun _ => none, []⟩ id = (.ok none, ⟨fun _ => none, []⟩) := rfl
    dsimp only
    rw [hget]
    dsimp only
    split
    next o m henv ho =>
      cases hf : Json.field KEY_ORIGIN m with
      | some v => exact .inl rfl
      | none => exact .inr ⟨m, o, rfl, ho, hf, rfl⟩
    next => exact .inl rfl

/-- A migrated entry is the confirmed one. -/
theorem migrateEntry_raw (raw : Json) (keys : Store) :
    (migrateEntry R raw keys).1 = confirmed R raw := by
  unfold confirmed migrateEntry
  cases idOf raw with
  | none => rfl
  | some id =>
    dsimp only
    cases keys.get id with
    | mk found keys' =>
      cases found with
      | error e => rfl
      | ok held =>
        cases held with
        | none => rfl
        | some k =>
          dsimp only
          split
          · cases originOf R raw with
            | none => rfl
            | some o =>
              dsimp only
              cases keys'.set id k.secret o with
              | mk done keys'' =>
                cases done with
                | ok u => rfl
                | error e => rfl
          · rfl

theorem migrate_raws (raws : List Json) : ∀ keys :
    Store, (migrate R raws keys).1 = raws.map (confirmed R) := by
  induction raws with
  | nil => exact fun _ => rfl
  | cons raw raws ih =>
    intro keys
    rw [List.map_cons, ← migrateEntry_raw raw keys, ← ih (migrateEntry R raw keys).2.1]
    rfl

/-- A confirmed entry says what it said in every field but `key_origin`. -/
theorem confirmed_textOf {key : Text} (hkey : key ≠ KEY_ORIGIN) (raw : Json) :
    (confirmed R raw).textOf key = raw.textOf key := by
  rcases confirmed_cases (R := R) raw with heq | ⟨m, o, rfl, _, _, heq⟩
  · rw [heq]
  · rw [heq]
    exact congrArg (Option.bind · Json.asStr) (Json.field_insert_of_ne hkey _ m)

namespace History.Local

theorem mono (L : h.Local R raw) (hle : h.written ⊆ h'.written) : h'.Local R raw where
  program hc := by
    obtain ⟨w, hw, hlike⟩ := L.program hc
    exact ⟨w, hle hw, hlike⟩
  origin id keyRef o hid hkey ho := by
    obtain ⟨w, hw, hrest⟩ := L.origin id keyRef o hid hkey ho
    exact ⟨w, hle hw, hrest⟩

theorem written {w : Written} (hw : w ∈ h.written) : h.Local R w.raw where
  program _ := ⟨w, hw, .inl (.refl _)⟩
  origin _ _ _ hid hkey ho := ⟨w, hw, hid, hkey, .inl ho⟩

/-- An entry of an older file, once confirmed, is local to the history. -/
theorem legacy {w : Written} (hw : w ∈ h.written) (hl : w.legacy = true) :
    h.Local R (confirmed R w.raw) where
  program _ := ⟨w, hw, .inr ⟨hl, .refl _⟩⟩
  origin id keyRef o hid hkey ho := by
    have hid' : idOf w.raw = some id := (confirmed_textOf (by decide) w.raw).symm.trans hid
    have hkey' := (confirmed_textOf (R := R) (by decide) w.raw).symm.trans hkey
    refine ⟨w, hw, hid', hkey', ?_⟩
    rcases confirmed_cases (R := R) w.raw with heq | ⟨m, o', hm, ho', hnone, heq⟩
    · rw [heq] at ho
      exact .inl ho
    · -- The address is the one the start confirmed.
      have hsame : some o' = some o := by
        rw [heq] at ho
        unfold Json.textOf Json.get at ho
        dsimp only at ho
        rwa [Json.field_insert_self] at ho
      exact .inr ⟨hl, by rw [hm]; exact hnone, ho'.trans hsame⟩

/-- What is alike a local entry is local. -/
theorem like (L : h.Local R raw) (hlike : raw'.Like raw) : h.Local R raw' where
  program hc := by
    have hkind : isCommand raw = true := by
      have hsame := hlike.textOf (txt "kind")
      unfold Json.textOf at hsame
      unfold isCommand at hc ⊢
      rwa [hsame] at hc
    obtain ⟨w, hw, hw'⟩ := L.program hkind
    exact ⟨w, hw, hw'.imp (fun hl => hlike.trans hl) fun ⟨hl, hl'⟩ => ⟨hl, hlike.trans hl'⟩⟩
  origin id keyRef o hid hkey ho := by
    have hid' : idOf raw = some id := (hlike.textOf (txt "id")).symm.trans hid
    exact L.origin id keyRef o hid' ((hlike.textOf _).symm.trans hkey)
      ((hlike.textOf _).symm.trans ho)

end History.Local

/-! ## What a request stores -/

/-- A stored profile has no confirmed address, or the one of the entry it replaces, whose key source
is the same. -/
theorem stored_cases (p : Profile) (old : Option Json) :
    stored R p old = p.toJson ∨ ∃ r c m, old = some r ∧ p.toJson = .object m ∧
      r.get (txt "key_ref") = p.toJson.get (txt "key_ref") ∧ r.textOf KEY_ORIGIN = some c ∧
      stored R p old = .object (Json.insert KEY_ORIGIN (.string c) m) := by
  unfold stored
  split
  next name hkey =>
    dsimp only
    split
    next c m hc hm =>
      obtain ⟨hc, -⟩ := Option.filter_eq_some_iff.mp hc
      obtain ⟨v, hv, hc⟩ := Option.bind_eq_some_iff.mp hc
      obtain ⟨r, hr, hv⟩ := Option.bind_eq_some_iff.mp hv
      obtain ⟨hr, hsame⟩ := Option.filter_eq_some_iff.mp hr
      refine .inr ⟨r, c, m, hr, hm, beq_iff_eq.mp hsame, ?_, rfl⟩
      unfold Json.textOf
      rw [hv]
      exact hc
    next => exact .inl rfl
  next => exact .inl rfl

theorem toJson_kind (p : Profile) : p.toJson.textOf (txt "kind") = some p.kind.asStr := by
  show (Json.field (txt "kind") _).bind Json.asStr = _
  rw [field_putField_of_ne (by decide), field_putField_of_ne (by decide),
    field_putField_of_ne (by decide),
    field_putField_of_ne (by decide), field_putField_of_ne (by decide),
    field_putField_of_ne (by decide),
    field_putField_of_ne (by decide), field_putField]
  rfl

theorem toJson_confirms_nothing (p : Profile) : p.toJson.get KEY_ORIGIN = none := by
  show Json.field KEY_ORIGIN _ = none
  rw [field_putField_of_ne (by decide), field_putField_of_ne (by decide),
    field_putField_of_ne (by decide),
    field_putField_of_ne (by decide), field_putField_of_ne (by decide),
    field_putField_of_ne (by decide),
    field_putField_of_ne (by decide), field_putField_of_ne (by decide),
    field_putField_of_ne (by decide)]
  rfl

theorem Kind.eq_command {kind : Kind} (h : kind.asStr = Kind.command.asStr) : kind = .command := by
  cases kind <;> first | rfl | exact absurd h (by decide)

theorem stored_kind (p : Profile) (old : Option Json) :
    (stored R p old).textOf (txt "kind") = some p.kind.asStr := by
  rcases stored_cases (R := R) p old with heq | ⟨r, c, m, -, hm, -, -, heq⟩
  · rw [heq]
    exact toJson_kind p
  · rw [heq, ← toJson_kind p, hm]
    exact congrArg (Option.bind · Json.asStr) (Json.field_insert_of_ne (by decide) _ m)

theorem stored_no_command {p : Profile} (hkind : p.kind ≠ .command) (old : Option Json) :
    isCommand (stored R p old) ≠ true := by
  intro hc
  have hk : some p.kind.asStr = some Kind.command.asStr := by
    rw [← stored_kind (R := R) p old]
    exact beq_iff_eq.mp hc
  exact hkind (Kind.eq_command (Option.some.inj hk))

/-- A request's profile says nothing that only a file can say, but what the entry it replaces said.
-/
theorem History.Local.stored {p : Profile} {old : Option Json} (hkind : p.kind ≠ .command)
    (hold : ∀ r, old = some r → idOf r = some p.id ∧ h.Local R r) : h.Local R (stored R p old) := by
  have hid := idOf_stored (R := R) p old
  constructor
  · exact fun hc => absurd hc (stored_no_command hkind old)
  · intro id keyRef o hid' hkey ho
    obtain rfl := Option.some.inj (hid.symm.trans hid')
    rcases stored_cases (R := R) p old with heq | ⟨r, c, m, hr, hm, hsame, hc, heq⟩
    · rw [heq] at ho
      unfold Json.textOf at ho
      rw [toJson_confirms_nothing] at ho
      cases ho
    · rw [heq] at hkey ho
      unfold Json.textOf Json.get at hkey ho
      dsimp only at hkey ho
      rw [Json.field_insert_of_ne (by decide)] at hkey
      rw [Json.field_insert_self] at ho
      obtain rfl : c = o := Option.some.inj ho
      obtain ⟨hrid, L⟩ := hold r hr
      refine L.origin p.id keyRef c hrid ?_ hc
      unfold Json.textOf
      rw [hsame, hm]
      exact hkey

/-- A request never adds a program. -/
theorem requested_kind {engine : Json} {secret : Option Text} {entries : List Entry} {p : Profile}
    (hreq : requested R engine secret entries = .ok p) : p.kind ≠ .command := by
  unfold requested at hreq
  obtain ⟨m, _, hreq⟩ := bind_ok hreq
  obtain ⟨_, _, hreq⟩ := bind_ok hreq
  obtain ⟨_, _, hreq⟩ := bind_ok hreq
  obtain ⟨m', _, hreq⟩ := bind_ok hreq
  obtain ⟨q, _, hreq⟩ := bind_ok hreq
  obtain ⟨_, hkind, hreq⟩ := bind_ok hreq
  cases hreq
  intro hc
  rw [hc] at hkind
  cases hkind

/-! ## The entries in memory -/

/-- The history bears the entry out, and its engine is built from what is stored. -/
structure History.Knows (R : Rules) (h : History) (e : Entry) : Prop where
  raw : h.Local R e.raw
  built : ∀ p, e.state = .ready p → build R e.raw = .ok p

theorem History.Knows.mono {e : Entry} (K : h.Knows R e) (hle : h.written ⊆ h'.written) :
    h'.Knows R e :=
  ⟨K.raw.mono hle, K.built⟩

theorem stateOf_ready {id : Text} {p : Profile} (hs : (stateOf R id raw).1 = .ready p) :
    build R raw = .ok p := by
  unfold stateOf at hs
  split at hs
  next q hq =>
    cases hs
    exact hq
  next => cases hs
  next => cases hs

/-- A taken in entry is one of before, or is made of the file's. -/
theorem takeIn_known (raws : List Json) : ∀ (old entries : List Entry) (problems : List Text),
    (∀ raw ∈ raws, h.Local R raw) → (∀ e ∈ old, h.Knows R e) → (∀ e ∈ entries, h.Knows R e) →
    ∀ e ∈ (takeIn R raws old entries problems).1, h.Knows R e := by
  induction raws with
  | nil => exact fun _ _ _ _ _ hentries => hentries
  | cons raw raws ih =>
    intro old entries problems hraws hold hentries
    have hrest : ∀ raw ∈ raws, h.Local R raw := fun r hr => hraws r (List.mem_cons_of_mem _ hr)
    have hone : ∀ e, h.Knows R e → ∀ x ∈ entries ++ [e], h.Knows R x := by
      intro e he x hx
      rcases List.mem_append.mp hx with hx | hx
      · exact hentries x hx
      · rw [List.mem_singleton.mp hx]
        exact he
    rw [takeIn]
    dsimp only
    split
    · exact ih old entries _ hrest hold hentries
    · split
      next kept hk =>
        exact ih _ _ _ hrest (fun e he => hold e (List.mem_of_mem_erase he))
          (hone kept (hold kept (List.mem_of_find?_eq_some hk)))
      next hk =>
        exact ih _ _ _ hrest hold
          (hone _ ⟨hraws raw List.mem_cons_self, fun p hp => stateOf_ready hp⟩)

theorem entriesFrom_known {raws : List Json} {old : List Entry}
    (hraws : ∀ raw ∈ raws, h.Local R raw)
    (hold : ∀ e ∈ old, h.Knows R e) : ∀ e ∈ (entriesFrom R raws old).1, h.Knows R e :=
  takeIn_known _ old [] [] (fun raw hr => hraws raw (List.mem_of_mem_take hr)) hold
    fun _ he => absurd he List.not_mem_nil

/-! ## The file -/

theorem History.OnDisk.mono {text : Option Text} (D : h.OnDisk R text)
    (hle : h.written ⊆ h'.written) :
    h'.OnDisk R text :=
  fun raws legacy hp => (D raws legacy hp).imp (fun hw raw hr => hle (hw raw hr))
    fun ⟨hl, hL⟩ => ⟨hl, fun raw hr => (hL raw hr).mono hle⟩

theorem onDisk_written (text : Option Text) (hle : writtenIn R text ⊆ h.written) :
    h.OnDisk R text := by
  intro raws legacy hp
  refine .inl fun raw hr => hle ?_
  unfold writtenIn
  rw [hp]
  exact List.mem_map_of_mem hr

theorem likes_local {raws' raws : List Json} (hlike : List.Forall₂ Json.Like raws' raws)
    (hraws : ∀ raw ∈ raws, h.Local R raw) : ∀ raw ∈ raws', h.Local R raw := by
  induction hlike with
  | nil => exact hraws
  | cons hl _ ih =>
    rw [List.forall_mem_cons] at hraws ⊢
    exact ⟨hraws.1.like hl, ih hraws.2⟩

/-- A save leaves a file of entries the history bears out. -/
theorem onDisk_saved (hR : R.ReadsBack) {raws : List Json} (hraws : ∀ raw ∈ raws, h.Local R raw) :
    h.OnDisk R (some (R.print (document raws))) := by
  intro raws' legacy hp
  unfold parseFile at hp
  dsimp only at hp
  cases hv : R.parse (R.print (document raws)) with
  | error e =>
    rw [hv] at hp
    cases hp
  | ok v =>
    rw [hv] at hp
    obtain ⟨read, rfl, hlike⟩ := hR raws v hv
    cases hp
    exact .inr ⟨rfl, likes_local hlike hraws⟩

/-- The entries of a file on disk. -/
theorem History.OnDisk.local {text : Option Text} (D : h.OnDisk R text) {raws : List Json}
    {legacy : Bool} (hp : parseFile R text = .ok (raws, legacy)) : ∀ raw ∈ raws, h.Local R raw := by
  intro raw hr
  rcases D raws legacy hp with hw | ⟨-, hL⟩
  · exact .written (hw raw hr)
  · exact hL raw hr

end Sonara.Engines
