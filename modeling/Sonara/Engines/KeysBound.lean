import Sonara.Engines.Lossless
import Sonara.Engines.Vouched

/-!
# A key goes nowhere else

`KeyResolver::resolve` decides what key a request to a provider carries. In every run, whatever
clients ask, whatever other programs write to `engines.json` and whatever fails, a stored key is
resolved only for the address it was entered for (`keys_stay`), a key of the environment only for
the provider itself or an address that the file confirmed, and a draft uses the secret of its own
request. And no request makes a program of an entry, or changes one (`programs_stay`).
-/

namespace Sonara.Engines

open Sonara.Text
open Profile (fromJson_spec)
open Lib (bind_ok mapError_ok elim_ok)

variable {R : Rules} {h : History} {rt : Runtime}

/-- The history bears out what the runtime holds. -/
structure History.Holds (R : Rules) (h : History) (rt : Runtime) : Prop where
  entries : ∀ e ∈ rt.entries, h.Knows R e
  indexed : Indexed rt.entries
  disk : h.OnDisk R (readText rt.home.file)

namespace History.Holds

/-- Only the entries and the file matter. -/
theorem of_eq {rt' : Runtime} (H : h.Holds R rt) (he : rt'.entries = rt.entries)
    (hf : rt'.home.file = rt.home.file) :
    h.Holds R rt' where
  entries := by rw [he]; exact H.entries
  indexed := by rw [he]; exact H.indexed
  disk := by rw [hf]; exact H.disk

theorem mono {h' : History} (H : h.Holds R rt) (hle : h.written ⊆ h'.written) : h'.Holds R rt where
  entries e he := (H.entries e he).mono hle
  indexed := H.indexed
  disk := H.disk.mono hle

theorem reload (H : h.Holds R rt) : h.Holds R (reload R rt).2 := by
  cases hp : parseFile R (readText rt.home.file) with
  | error why =>
    rw [reload_error hp]
    exact H
  | ok read =>
    rw [reload_ok hp]
    exact ⟨entriesFrom_known (H.disk.local hp) H.entries, entriesFrom_indexed _ _, H.disk⟩

theorem takeInFileChanges (H : h.Holds R rt) : h.Holds R (takeInFileChanges R rt).2 := by
  unfold Engines.takeInFileChanges
  split
  · have hread := H.reload
    revert hread
    cases Engines.reload R rt with
    | mk done rt' =>
      cases done with
      | ok problems => exact fun h => h
      | error e => exact fun h => h
  · exact H

/-- The entries of memory are saved, or the file stays. -/
theorem save (hR : R.ReadsBack) (H : h.Holds R rt) {next : List Entry}
    (hnext : ∀ e ∈ next, h.Knows R e)
    (hi : Indexed next) (fails : Option Text) {rt' : Runtime} (he : rt'.entries = next)
    (hf : rt'.home.file = (Engines.save R next fails rt).2.home.file) : h.Holds R rt' where
  entries := by rw [he]; exact hnext
  indexed := by rw [he]; exact hi
  disk := by
    rw [hf]
    cases fails with
    | some e => exact H.disk
    | none =>
      refine onDisk_saved hR fun raw hr => ?_
      obtain ⟨e, he, rfl⟩ := List.mem_map.mp hr
      exact (hnext e he).raw

end History.Holds

theorem mem_put {x e : Entry} {entries : List Entry} (hx : x ∈ put e entries) :
    x = e ∨ x ∈ entries := by
  unfold put at hx
  split at hx
  · obtain ⟨y, hy, rfl⟩ := List.mem_map.mp hx
    split
    · exact .inl rfl
    · exact .inr hy
  · exact (List.mem_append.mp hx).symm.imp_left List.mem_singleton.mp

namespace History.Holds

/-- What is known of the keys survives an `engine_add` that is no command engine. -/
theorem addLocked (hR : R.ReadsBack) (H : h.Holds R rt) {p : Profile} (hkind : p.kind ≠ .command)
    (secret : Option Text) (replace : Bool) (fails : Option Text) :
    h.Holds R (addLocked R p secret replace fails rt).2 := by
  unfold Engines.addLocked
  cases admitted p.id replace rt.entries with
  | error e => exact H
  | ok u =>
    dsimp only
    cases bindKey R p secret rt.keys with
    | mk done keys =>
      have Hkeys : h.Holds R { rt with keys } := H.of_eq rfl rfl
      cases done with
      | error e => exact Hkeys
      | ok u =>
        dsimp only
        have hid := idOf_stored (R := R) p ((entryOf p.id rt.entries).map (·.raw))
        have hlocal : h.Local R (stored R p ((entryOf p.id rt.entries).map (·.raw))) := by
          refine .stored hkind fun r hr => ?_
          obtain ⟨e, he, rfl⟩ := Option.map_eq_some_iff.mp hr
          unfold entryOf at he
          have hmem := List.mem_of_find?_eq_some he
          have hsame := List.find?_some he
          rw [beq_iff_eq] at hsame
          exact ⟨by rw [H.indexed.own e hmem, hsame], (H.entries e hmem).raw⟩
        generalize stored R p ((entryOf p.id rt.entries).map (·.raw)) = raw at hid hlocal
        cases hb : build R raw with
        | error e => exact Hkeys
        | ok built =>
          have hentry : h.Knows R ⟨p.id, raw, .ready built⟩ := by
            refine ⟨hlocal, fun q hq => ?_⟩
            cases hq
            exact hb
          have hnext : ∀ e ∈ put ⟨p.id, raw, .ready built⟩ rt.entries, h.Knows R e := by
            intro e he
            rcases mem_put he with rfl | he
            · exact hentry
            · exact H.entries e he
          have hi : Indexed (put ⟨p.id, raw, .ready built⟩ rt.entries) := H.indexed.put hid
          cases fails with
          | none => exact Hkeys.save hR hnext hi none rfl rfl
          | some e => exact Hkeys.save hR hnext hi (some e) rfl rfl

/-- What is known of the keys survives a removal. -/
theorem remove (hR : R.ReadsBack) (H : h.Holds R rt) (id : Text) (forgetKey : Bool)
    (fails : Option Text) :
    h.Holds R (remove R id forgetKey fails rt).2 := by
  unfold Engines.remove
  have Htook := H.takeInFileChanges
  revert Htook
  cases Engines.takeInFileChanges R rt with
  | mk done rt' =>
    intro Htook
    cases done with
    | error e => exact Htook
    | ok u =>
      dsimp only
      cases entryOf id rt'.entries with
      | none => exact Htook
      | some e =>
        exact Htook.save hR (fun x hx => Htook.entries x (List.mem_of_mem_erase hx))
          (Htook.indexed.erase e) fails
          rfl rfl

end History.Holds

/-- A key that changes leaves the entries and the file. -/
theorem setKey_leaves (env : Env) (id : Text) (secret : Option Text) (rt : Runtime) :
    (setKey R env id secret rt).2.entries = rt.entries ∧ (setKey R env id secret rt).2.home =
    rt.home := by
  unfold setKey
  cases entryOf id rt.entries with
  | none => exact ⟨rfl, rfl⟩
  | some e =>
    dsimp only
    cases (keyPlace R e).1 with
    | env name => exact ⟨rfl, rfl⟩
    | none => exact ⟨rfl, rfl⟩
    | credMan =>
      dsimp only
      split <;> exact ⟨rfl, rfl⟩

/-- Every call keeps what is known of the keys and of the file. -/
theorem History.Holds.call (hR : R.ReadsBack) (H : h.Holds R rt) (c : Call) (fails : Option Text) :
    h.Holds R (c.run R fails rt).2 := by
  cases c with
  | add engine secret replace =>
    unfold Call.run Engines.add
    dsimp only
    cases hreq : requested R engine secret rt.entries with
    | error e => exact H
    | ok p =>
      dsimp only
      have Htook := H.takeInFileChanges
      revert Htook
      cases Engines.takeInFileChanges R rt with
      | mk done rt' =>
        intro Htook
        cases done with
        | error e => exact Htook
        | ok u => exact Htook.addLocked hR (requested_kind hreq) secret replace fails
  | remove id forgetKey => exact H.remove hR id forgetKey fails
  | reload => exact H.reload
  | setKey env id secret =>
    obtain ⟨he, hh⟩ := setKey_leaves (R := R) env id secret rt
    exact H.of_eq he (congrArg Home.file hh)

/-- A start takes in what is on disk, and confirms what a file of format 1 left open. -/
theorem load_holds (hR : R.ReadsBack) {home : Home} (D : h.OnDisk R (readText home.file))
    (keys : Store) (copied : Bool)
    (fails : Option Text) : h.Holds R (load R home keys copied fails).2 := by
  cases hp : parseFile R (readText home.file) with
  | error why =>
    rw [load_error hp]
    exact ⟨fun e he => absurd he List.not_mem_nil, .nil, D⟩
  | ok read =>
    obtain ⟨raws, legacy⟩ := read
    cases legacy with
    | false =>
      rw [load_ok hp]
      exact ⟨entriesFrom_known (D.local hp) fun e he => absurd he List.not_mem_nil,
        entriesFrom_indexed _ _, D⟩
    | true =>
      rw [load_legacy hp]
      have hraws : ∀ raw ∈ (migrate R raws keys).1, h.Local R raw := by
        intro raw hr
        rw [migrate_raws] at hr
        obtain ⟨w, hw, rfl⟩ := List.mem_map.mp hr
        rcases D raws true hp with hwritten | ⟨hl, -⟩
        · exact .legacy (hwritten w hw) rfl
        · cases hl
      have hentries : ∀ e ∈ (entriesFrom R (migrate R raws keys).1 []).1, h.Knows R e :=
        entriesFrom_known hraws fun e he => absurd he List.not_mem_nil
      have hi : Indexed (entriesFrom R (migrate R raws keys).1 []).1 := entriesFrom_indexed _ _
      have H : h.Holds R { home, keys := (migrate R raws keys).2.1
                           entries := (entriesFrom R (migrate R raws keys).1 []).1, seen :=
                           readText home.file } :=
        ⟨hentries, hi, D⟩
      cases fails with
      | none => exact H.save hR hentries hi none rfl rfl
      | some e => exact H.save hR hentries hi (some e) rfl rfl

/-! ## The keys of a run -/

/-- Every stored key was given, or bound by a start. -/
def History.Keeps (R : Rules) (h : History) (keys : Store) : Prop :=
  ∀ id k, keys.held id = some k → (id, k) ∈ h.given ∨ ∃ o, k.origin = some o ∧
    h.Entered R id k.secret o

theorem History.Entered.mono {h' : History} {id secret origin : Text}
    (E : h.Entered R id secret origin)
    (hgiven : h.given ⊆ h'.given) (hwritten : h.written ⊆ h'.written) :
    h'.Entered R id secret origin :=
  E.imp (fun hg => hgiven hg) fun ⟨hg, w, hw, hrest⟩ => ⟨hgiven hg, w, hwritten hw, hrest⟩

theorem History.Keeps.mono {h' : History} {keys : Store} (K : h.Keeps R keys)
    (hgiven : h.given ⊆ h'.given) (hwritten : h.written ⊆ h'.written) : h'.Keeps R keys :=
  fun id k hk => (K id k hk).imp (fun hg => hgiven hg) fun ⟨o, ho, E⟩ =>
    ⟨o, ho, E.mono hgiven hwritten⟩

/-- A start binds an unbound key to the address its entry had in a file of format 1. -/
theorem History.Keeps.load {home : Home} {keys : Store} (K : h.Keeps R keys)
    (D : h.OnDisk R (readText home.file)) (copied : Bool) (fails : Option Text) :
    h.Keeps R (load R home keys copied fails).2.keys := by
  intro id k hk
  rcases load_keys home keys copied fails id k hk with
    hk | ⟨raws, hp, raw, hraw, hid, ho, hne, hheld⟩
  · exact K id k hk
  · obtain ⟨o, hko⟩ := Option.ne_none_iff_exists'.mp hne
    have hgiven : (id, ⟨k.secret, none⟩) ∈ h.given := by
      rcases K id _ hheld with hg | ⟨o', ho', -⟩
      · exact hg
      · cases ho'
    rcases D raws true hp with hwritten | ⟨hl, -⟩
    · exact .inr ⟨o, hko, .inr ⟨hgiven, _, hwritten raw hraw, rfl, hid, ho.symm.trans hko⟩⟩
    · cases hl

/-- Over a whole run every key is bound where the history says. -/
theorem Run.sound (hR : R.ReadsBack) (run : Run R h rt) : h.Holds R rt ∧ h.Keeps R rt.keys := by
  induction run with
  | first home keys given copied fails hgiven =>
    have D := onDisk_written (R := R) (h := ⟨writtenIn R (readText home.file), given⟩)
      (readText home.file)
      (List.Subset.refl _)
    exact ⟨load_holds hR D keys copied fails,
      History.Keeps.load (fun id k hk => .inl (hgiven id k hk)) D copied fails⟩
  | @call h rt c fails _ ih =>
    obtain ⟨H, K⟩ := ih
    have hgiven : h.given ⊆ c.gives R rt ++ h.given := List.subset_append_right _ _
    have K' : History.Keeps R { h with given := c.gives R rt ++ h.given } rt.keys :=
      K.mono hgiven (List.Subset.refl _)
    refine ⟨(H.call hR c fails).mono (List.Subset.refl _), fun id k hk => ?_⟩
    rcases c.run_keys fails rt id k hk with hk | hnew
    · exact K' id k hk
    · exact .inl (List.mem_append_left _ hnew)
  | @edit h rt file _ ih =>
    obtain ⟨H, K⟩ := ih
    have hle : h.written ⊆ writtenIn R (readText file) ++ h.written := List.subset_append_right _ _
    refine ⟨⟨(H.mono hle).entries, H.indexed, ?_⟩, K.mono (List.Subset.refl _) hle⟩
    exact onDisk_written (readText file) (List.subset_append_left _ _)
  | again copied fails _ ih =>
    obtain ⟨H, K⟩ := ih
    exact ⟨load_holds hR H.disk _ copied fails, K.load H.disk copied fails⟩

/-! ## What is resolved -/

/-- A stored key is bound to the profile's address; a key of the environment goes to the provider,
or to the confirmed address. -/
theorem resolve_some {env : Env} {keys : Store} {p : Profile} {s : Text}
    (hs : (resolve R env keys p).1 = .ok (some s)) :
    (p.keyRef = .credMan ∧ ∃ o, p.origin R = some o ∧ keys.held p.id = some ⟨s, some o⟩) ∨
      ∃ name v o, p.keyRef = .env name ∧ env name = some v ∧ s = trim v ∧ p.origin R = some o ∧
        (p.defaultOrigin R = some o ∨ p.keyOrigin = some o) := by
  unfold resolve at hs
  cases hk : p.keyRef with
  | none =>
    rw [hk] at hs
    cases hs
  | env name =>
    rw [hk] at hs
    dsimp only at hs
    split at hs
    · cases hs
    next v hv =>
      split at hs
      next hok =>
        cases hs
        rw [Bool.and_eq_true, Bool.or_eq_true, beq_iff_eq, beq_iff_eq] at hok
        obtain ⟨o, ho⟩ := Option.isSome_iff_exists.mp hok.1
        rw [ho] at hok
        exact .inr ⟨name, v, o, rfl, (Option.filter_eq_some_iff.mp hv).1, rfl, ho,
          hok.2.imp Eq.symm Eq.symm⟩
      · cases hs
  | credMan =>
    rw [hk] at hs
    dsimp only at hs
    cases hget : keys.get p.id with
    | mk found keys' =>
      rw [hget] at hs
      cases found with
      | error e => cases e <;> cases hs
      | ok held =>
        cases held with
        | none => cases hs
        | some k =>
          obtain ⟨secret, origin⟩ := k
          dsimp only at hs
          split at hs
          · cases hs
          · cases origin with
            | none => cases hs
            | some o =>
              dsimp only at hs
              split at hs
              next ho =>
                cases hs
                exact .inl ⟨rfl, o, ho.symm, (get_some hget).1⟩
              · cases hs

/-- A key reference that names a variable was written in that form. -/
theorem keyRef_parse {v : Option Json} {name : Text}
    (hp : KeyRef.parse v = .ok (some (.env name))) :
    v = some (.string (KeyRef.env name).asWire) := by
  unfold KeyRef.parse at hp
  split at hp
  · cases hp
  · cases hp
  next s =>
    split at hp
    · cases hp
    · split at hp
      · cases hp
      · split at hp
        next hpre =>
          dsimp only at hp
          split at hp
          · cases hp
            obtain ⟨rest, rfl⟩ := List.isPrefixOf_iff_prefix.mp hpre
            rfl
          · split at hp <;> cases hp
        · cases hp
  · cases hp

theorem defaultKeyRef_ne (p : Profile) (name : Text) : p.defaultKeyRef R ≠ .env name := by
  unfold Profile.defaultKeyRef
  dsimp only
  split <;> exact fun hk => KeyRef.noConfusion hk

/-- What a parsed profile has from its object: a key source of the environment, and the program. -/
theorem fromJson_fields {m : List (Text × Json)} {p : Profile}
    (hp : Profile.fromJson R (.object m) = .ok p) :
    (∀ name, p.keyRef = .env name → Json.field (txt "key_ref") m = some (.string p.keyRef.asWire)) ∧
      Json.field (txt "argv") p.options = (Json.field (txt "options") m).bind
      (Json.get (txt "argv")) := by
  unfold Profile.fromJson at hp
  obtain ⟨m', hm, hp⟩ := bind_ok hp
  cases hm
  obtain ⟨o, _, hp⟩ := bind_ok hp
  cases o with
  | none => cases hp
  | some id =>
  obtain ⟨_, _, hp⟩ := bind_ok hp
  obtain ⟨o, _, hp⟩ := bind_ok hp
  cases o with
  | none => cases hp
  | some kindName =>
  dsimp only at hp
  generalize Kind.parse kindName = k at hp
  cases k with
  | none => cases hp
  | some kind =>
  dsimp only at hp
  obtain ⟨options, hoptions, hp⟩ := bind_ok hp
  obtain ⟨mode, _, hp⟩ := bind_ok hp
  obtain ⟨label, _, hp⟩ := bind_ok hp
  obtain ⟨url, _, hp⟩ := bind_ok hp
  obtain ⟨model, _, hp⟩ := bind_ok hp
  obtain ⟨voice, _, hp⟩ := bind_ok hp
  obtain ⟨keyRef, hkey, hp⟩ := bind_ok hp
  have hargv : Json.field (txt "argv") options = (Json.field (txt "options") m).bind
      (Json.get (txt "argv")) := by
    unfold Profile.optionsOf at hoptions
    split at hoptions
    next hnone => cases hoptions; rw [hnone]; rfl
    next hnull => cases hoptions; rw [hnull]; rfl
    next o ho => cases hoptions; rw [ho]; rfl
    next => cases hoptions
  split at hp
  · cases hp
  · cases hp
    refine ⟨fun name hname => ?_, ?_⟩
    · have hkey := mapError_ok hkey
      cases keyRef with
      | none => exact absurd hname (defaultKeyRef_ne _ name)
      | some r =>
        cases hname
        exact keyRef_parse hkey
    · -- The options of before the release are folded away, and no other.
      dsimp only
      split
      · rw [Json.field_remove_of_ne (by decide), Json.field_remove_of_ne (by decide), hargv]
      · rw [Json.field_remove_of_ne (by decide), hargv]

/-- What the engine of an entry has from what is stored. -/
structure Built (R : Rules) (raw : Json) (p : Profile) : Prop where
  id : idOf raw = some p.id
  kind : p.kind = .command → isCommand raw = true
  keyRef : ∀ name, p.keyRef = .env name → raw.textOf (txt "key_ref") = some p.keyRef.asWire
  keyOrigin : ∀ o, p.keyOrigin = some o → raw.textOf KEY_ORIGIN = some o
  argv : Json.field (txt "argv") p.options = (raw.get (txt "options")).bind (Json.get (txt "argv"))

/-- A profile that was built has the fields its entry says. -/
theorem build_built {raw : Json} {p : Profile} (hb : build R raw = .ok p) : Built R raw p := by
  unfold build at hb
  obtain ⟨q, hq, hb⟩ := bind_ok hb
  cases raw with
  | object m =>
    obtain ⟨hid, hkind, hnone, -⟩ := fromJson_spec hq
    obtain ⟨hkey, hargv⟩ := fromJson_fields hq
    have hkind' : q.kind = .command → isCommand (.object m) = true := by
      intro hc
      unfold isCommand Json.get
      dsimp only
      rw [hkind, hc]
      rfl
    have hid' : idOf (.object m) = some q.id := by
      unfold idOf Json.get
      dsimp only
      rw [hid]
      rfl
    have hkey' : ∀ name, q.keyRef = .env name →
        Json.textOf (txt "key_ref") (.object m) = some q.keyRef.asWire := by
      intro name hname
      unfold Json.textOf Json.get
      dsimp only
      rw [hkey name hname]
      rfl
    split at hb
    next name hk =>
      dsimp only at hb
      split at hb
      · cases hb
      · cases hb
        exact ⟨hid', hkind', hkey', fun o ho => ho, hargv⟩
    next =>
      dsimp only at hb
      split at hb
      · cases hb
      · cases hb
        refine ⟨hid', hkind', hkey', fun o ho => ?_, hargv⟩
        cases hnone.symm.trans ho
  | _ =>
    obtain ⟨m, hm, -⟩ := bind_ok hq
    cases elim_ok hm

/-! ## Drafts -/

/-- A draft has no confirmed address, and no key but the secret of its request. -/
theorem draft_spec {profile : Json} {secret : Option Text} {faults : List (Option KeyError)}
    {p : Profile} {store : Store} (hd : draft R profile secret faults = .ok (p, store)) :
    p.kind ≠ .command ∧ p.keyOrigin = none ∧ ∀ id k, store.held id = some k →
    secret = some k.secret := by
  unfold draft at hd
  obtain ⟨m, _, hd⟩ := bind_ok hd
  obtain ⟨_, _, hd⟩ := bind_ok hd
  obtain ⟨m', _, hd⟩ := bind_ok hd
  obtain ⟨q, hq, hd⟩ := bind_ok hd
  obtain ⟨_, hkind, hd⟩ := bind_ok hd
  obtain ⟨kept, hkept, hd⟩ := bind_ok hd
  split at hd
  · cases hd
  · cases hd
    refine ⟨?_, (fromJson_spec (mapError_ok hq)).2.2.1, fun id k hk => ?_⟩
    · intro hc
      rw [hc] at hkind
      cases hkind
    · unfold draftStore at hkept
      dsimp only at hkept
      cases secret with
      | none =>
        cases hkept
        cases hk
      | some s =>
        dsimp only at hkept
        cases ho : p.origin R with
        | none =>
          rw [ho] at hkept
          cases hkept
        | some o =>
          rw [ho] at hkept
          dsimp only at hkept
          have hset := set_adds (⟨fun _ => none, faults⟩ : Store) DRAFT_ID s o
          cases hs : Store.set ⟨fun _ => none, faults⟩ DRAFT_ID s o with
          | mk done keys =>
            rw [hs] at hkept hset
            cases done with
            | error e => cases hkept
            | ok u =>
              cases hkept
              rcases hset id k hk with hk | ⟨-, rfl⟩
              · cases hk
              · rfl

/-! ## The keys stay -/

/-- **A key goes nowhere else.** In every run a stored key is resolved only for the address it was
entered for, a key of the environment only for the provider or an address that another program
confirmed in the file, and a draft has the secret of its request. -/
theorem keys_stay (hR : R.ReadsBack) (run : Run R h rt) (env : Env) :
    (∀ p s, (resolve R env rt.keys p).1 = .ok (some s) → p.keyRef = .credMan →
      ∃ o, p.origin R = some o ∧ h.Entered R p.id s o) ∧
    (∀ e ∈ rt.entries, ∀ p, e.state = .ready p → p.id = e.id ∧
      ∀ keys s, (resolve R env keys p).1 = .ok (some s) → ∀ name, p.keyRef = .env name →
        ∃ v o, env name = some v ∧ s = trim v ∧ p.origin R = some o ∧
          (p.defaultOrigin R = some o ∨ h.Confirms R e.id p.keyRef.asWire o)) ∧
    ∀ profile secret faults p store s, draft R profile secret faults = .ok (p, store) →
      (resolve R env store p).1 = .ok (some s) →
      (p.keyRef = .credMan ∧ secret = some s) ∨
        ∃ name v, p.keyRef = .env name ∧ env name = some v ∧ s = trim v ∧ p.origin R ≠ none ∧
          p.defaultOrigin R = p.origin R := by
  obtain ⟨H, K⟩ := run.sound hR
  refine ⟨fun p s hs hk => ?_, fun e he p hp => ?_, fun profile secret faults p store s hd hs => ?_⟩
  · rcases resolve_some hs with ⟨-, o, ho, hheld⟩ | ⟨name, v, o, hname, -⟩
    · refine ⟨o, ho, ?_⟩
      rcases K p.id _ hheld with hgiven | ⟨o', ho', E⟩
      · exact .inl hgiven
      · cases ho'
        exact E
    · cases hk.symm.trans hname
  · have B := build_built ((H.entries e he).built p hp)
    have hid : p.id = e.id := Option.some.inj (B.id.symm.trans (H.indexed.own e he))
    refine ⟨hid, fun keys s hs name hk => ?_⟩
    rcases resolve_some hs with ⟨hcred, -⟩ | ⟨name', v, o, hname, hv, hs, ho, hto⟩
    · cases hk.symm.trans hcred
    · cases hk.symm.trans hname
      refine ⟨v, o, hv, hs, ho, hto.imp_right fun hto => ?_⟩
      exact (H.entries e he).raw.origin e.id p.keyRef.asWire o (H.indexed.own e he)
        (B.keyRef name hk)
        (B.keyOrigin o hto)
  · obtain ⟨-, hnone, hstore⟩ := draft_spec hd
    rcases resolve_some hs with ⟨hcred, o, -, hheld⟩ | ⟨name, v, o, hname, hv, hs, ho, hto⟩
    · exact .inl ⟨hcred, hstore _ _ hheld⟩
    · refine .inr ⟨name, v, hname, hv, hs, by rw [ho]; exact Option.some_ne_none o, ?_⟩
      rcases hto with hto | hto
      · rw [hto, ho]
      · cases hnone.symm.trans hto

/-- A program, as another program wrote it. -/
def speaker : Json :=
  .object [(txt "id", .string (txt "say")), (txt "kind", .string (txt "command")),
    (txt "options", .object [(txt "argv", .array [.string (txt "say.exe"), .string (txt "-o")])])]

def speakerText : Text :=
  txt "\x7b\n  \"engines\": [\n    \x7b\n      \"id\": \"say\",\n      \"kind\": \"command\",\n" ++
    txt "      \"options\": \x7b\n        \"argv\": [\n          \"say.exe\",\n" ++
    txt "          \"-o\"\n        ]\n      \x7d\n" ++
    txt "    \x7d\n  ],\n  \"format\": 2\n\x7d"

/-- The texts that are JSON in the runs below. -/
def pages : List (Text × Json) :=
  [(noEnginesText, document []), (voiceServerText, document [voiceServer]),
    (speakerText, document [speaker])]

/-- `sampleRules`, reading and printing those. -/
def pageRules : Rules :=
  { sampleRules with
    parse := fun t => (pages.find? (·.1 == t)).elim
      (.error (txt "expected value at line 1 column 1")) fun page => .ok page.2
    print := fun v => (pages.find? (·.2 == v)).elim (txt "?") Prod.fst }

theorem pages_parse : ∀ page ∈ pages, (pageRules.parse page.1).toOption = some page.2 := by
  decide +kernel

theorem forall₂_like (raws : List Json) : List.Forall₂ Json.Like raws raws :=
  List.forall₂_same.mpr fun raw _ => .refl raw

/-- The sample reader and printer agree on every page. -/
theorem pageRules_readsBack : pageRules.ReadsBack := by
  intro raws v hv
  cases hf : pages.find? (·.2 == document raws) with
  | none =>
    have hprint : pageRules.print (document raws) = txt "?" := by
      show (pages.find? (·.2 == document raws)).elim (txt "?") Prod.fst = _
      rw [hf]
      rfl
    have herror : (pageRules.parse (txt "?")).toOption = none := by decide +kernel
    rw [hprint] at hv
    rw [hv] at herror
    cases herror
  | some page =>
    have hprint : pageRules.print (document raws) = page.1 := by
      show (pages.find? (·.2 == document raws)).elim (txt "?") Prod.fst = _
      rw [hf]
      rfl
    have hpage := pages_parse page (List.mem_of_find?_eq_some hf)
    have hdocument := List.find?_some hf
    rw [beq_iff_eq] at hdocument
    rw [hprint] at hv
    rw [hv] at hpage
    refine ⟨raws, ?_, forall₂_like raws⟩
    rw [← hdocument]
    exact Option.some.inj hpage

/-- The request that adds the profile with its key. -/
def addWithKey : Call :=
  .add (.object [(txt "id", .string (txt "el")), (txt "kind", .string (txt "elevenlabs"))])
    (some (txt "sk-1")) false

/-- The runtime before it, on a file without profiles. -/
def bare : Runtime := (load pageRules ⟨some (.text noEnginesText), none⟩
    ⟨fun _ => none, []⟩ true none).2

theorem addWithKey_run :
    Run pageRules ⟨writtenIn pageRules (some noEnginesText), addWithKey.gives pageRules bare⟩
      (addWithKey.run pageRules none bare).2 := by
  have hfirst : Run pageRules ⟨writtenIn pageRules (some noEnginesText), []⟩ bare :=
    .first ⟨some (.text noEnginesText), none⟩ ⟨fun _ => none, []⟩ [] true none (by
      intro id k hk
      cases hk)
  have hadd := hfirst.call addWithKey none
  rwa [List.append_nil] at hadd

/-- The profile of the entry. -/
def keyed : Profile :=
  { id := txt "el", kind := .elevenLabs, label := none, url := none, model := none, voice := none,
    keyRef := .credMan,
    options := [], sendMode := none, keyOrigin := none }

theorem added_key_stays :
    ∃ o, keyed.origin pageRules = some o ∧
      History.Entered pageRules ⟨writtenIn pageRules (some noEnginesText),
        addWithKey.gives pageRules bare⟩ keyed.id
        (txt "sk-1") o :=
  (keys_stay pageRules_readsBack addWithKey_run fun _ => none).1 keyed (txt "sk-1")
    (by decide +kernel) rfl

end Sonara.Engines
