import Sonara.Engines.Saved
import Sonara.Json.Alike

/-!
# What the engines were given

A run of the runtime with its history: the entries of every `engines.json` another program wrote,
and the keys, each with the address it was entered for. `Run` is any order of starts, calls and
edits of the file by others. A key in the store is one of the history (`Call.run_keys`,
`load_keys`): a call only moves, deletes or adds the one its own request carries.
-/

namespace Sonara.Engines

open Sonara.Text

/-- An entry of an `engines.json` that another program wrote; `legacy`: of a file of format 1. -/
structure Written where
  raw : Json
  legacy : Bool
  deriving DecidableEq, Repr

variable (R : Rules)

/-- The entries of a file. -/
def writtenIn (text : Option Text) : List Written :=
  match parseFile R text with
  | .ok (raws, legacy) => raws.map fun raw => ⟨raw, legacy⟩
  | .error _ => []

/-- What came from outside of the runtime. -/
structure History where
  written : List Written
  /-- The keys by id, each with the address it was entered for (`none`: before keys were bound). -/
  given : List (Text × StoredKey)

/-- The key of a call's request, and the address of the profile it names. -/
def Call.gives (rt : Runtime) : Call → List (Text × StoredKey)
  | .add engine (some s) _ => match requested R engine (some s) rt.entries with
    | .ok p => (p.origin R).toList.map fun o => (p.id, ⟨s, some o⟩)
    | .error _ => []
  | .setKey _ id (some s) => match entryOf id rt.entries with
    | some e => (keyPlace R e).2.toList.map fun o => (id, ⟨s, some o⟩)
    | none => []
  | _ => []

/-- Any run: started on a home and its keys, called, the file written by others, started again. -/
inductive Run : History → Runtime → Prop
  | first (home : Home) (keys : Store) (given : List (Text × StoredKey)) (copied : Bool)
    (fails : Option Text) :
      (∀ id k, keys.held id = some k → (id, k) ∈ given) →
      Run ⟨writtenIn R (readText home.file), given⟩ (load R home keys copied fails).2
  | call {h : History} {rt : Runtime} (c : Call) (fails : Option Text) : Run h rt →
      Run { h with given := c.gives R rt ++ h.given } (c.run R fails rt).2
  | edit {h : History} {rt : Runtime} (file : Option Content) : Run h rt →
      Run { h with written := writtenIn R (readText file) ++ h.written }
        { rt with home := { rt.home with file } }
  | again {h : History} {rt : Runtime} (copied : Bool) (fails : Option Text) : Run h rt →
      Run h (load R rt.home rt.keys copied fails).2

variable {R}

/-! ## The key store -/

variable {keys : Store} {id : Text} {k : StoredKey}

/-- The keys of `keys'` are those of `keys`, or ones that `new` knows. -/
def Store.Adds (new : Text → StoredKey → Prop) (keys keys' : Store) : Prop :=
  ∀ id k, keys'.held id = some k → keys.held id = some k ∨ new id k

/-- No key is new. -/
def nothing (_ : Text) (_ : StoredKey) : Prop := False

theorem Store.Adds.same {new : Text → StoredKey → Prop} {keys' : Store}
    (h : keys'.held = keys.held) :
    keys.Adds new keys' := by
  intro id k hk
  rw [h] at hk
  exact .inl hk

theorem Store.Adds.trans {new : Text → StoredKey → Prop} {keys' keys'' : Store}
    (h : keys.Adds new keys') (h' : keys'.Adds new keys'') : keys.Adds new keys'' := by
  intro id k hk
  rcases h' id k hk with hk | hk
  · exact h id k hk
  · exact .inr hk

theorem Store.Adds.mono {new new' : Text → StoredKey → Prop} {keys' : Store}
    (h : keys.Adds new keys') (hle : ∀ id k, new id k → new' id k) : keys.Adds new' keys' :=
  fun id k hk => (h id k hk).imp_right (hle id k)

theorem get_held (keys : Store) (id : Text) : (keys.get id).2.held = keys.held := by
  unfold Store.get Store.tick
  cases keys.faults.head?.join with
  | some e => rfl
  | none => rfl

theorem delete_adds (keys : Store) (id : Text) : keys.Adds nothing (keys.delete id).2 := by
  unfold Store.delete Store.tick
  cases keys.faults.head?.join with
  | some e => exact .same rfl
  | none =>
    intro other k hk
    dsimp only at hk
    by_cases ho : other = id
    · rw [ho, Function.update_self] at hk
      cases hk
    · rw [Function.update_of_ne ho] at hk
      exact .inl hk

/-- Setting a key adds at most that one. -/
theorem set_adds (keys : Store) (id secret origin : Text) :
    keys.Adds (fun i k => i = id ∧ k = ⟨secret, some origin⟩) (keys.set id secret origin).2 := by
  unfold Store.set Store.tick
  cases keys.faults.head?.join with
  | some e => exact .same rfl
  | none =>
    intro other k hk
    dsimp only at hk
    by_cases ho : other = id
    · rw [ho, Function.update_self] at hk
      exact .inr ⟨ho, (Option.some.inj hk).symm⟩
    · rw [Function.update_of_ne ho] at hk
      exact .inl hk

/-- A read key, and the store after it. -/
theorem get_some {keys' : Store} (h : keys.get id = (.ok (some k), keys')) :
    keys.held id = some k ∧ keys'.held = keys.held := by
  have hheld := get_held keys id
  rw [h] at hheld
  refine ⟨?_, hheld⟩
  unfold Store.get Store.tick at h
  cases hf : keys.faults.head?.join with
  | some e =>
    rw [hf] at h
    cases h
  | none =>
    rw [hf] at h
    exact Except.ok.inj (congrArg Prod.fst h)

/-- The key of a request is bound to the address of its profile. -/
theorem bindKey_adds (p : Profile) (secret : Option Text) (keys : Store) :
    keys.Adds (fun i k => secret = some k.secret ∧ i = p.id ∧ k.origin = p.origin R ∧
      k.origin ≠ none)
      (bindKey R p secret keys).2 := by
  unfold bindKey
  cases secret with
  | some s =>
    dsimp only
    cases ho : p.origin R with
    | none => exact .same rfl
    | some o =>
      have hset : keys.Adds (fun i k => some s = some k.secret ∧ i = p.id ∧ k.origin = some o ∧
        k.origin ≠ none)
          (keys.set p.id s o).2 :=
        (set_adds keys p.id s o).mono fun i k hk =>
          ⟨by rw [hk.2], hk.1, by rw [hk.2], by rw [hk.2]; exact Option.some_ne_none o⟩
      dsimp only
      revert hset
      cases keys.set p.id s o with
      | mk done keys' =>
        cases done with
        | ok u => exact fun h => h
        | error e => exact fun h => h
  | none =>
    have hget := get_held keys p.id
    dsimp only
    revert hget
    cases keys.get p.id with
    | mk found keys' =>
      intro hget
      split
      next k keys'' heq =>
        cases heq
        split
        · exact (Store.Adds.same hget).trans ((delete_adds keys' p.id).mono fun _ _ h => h.elim)
        · exact .same hget
      next heq => cases heq; exact .same hget

/-- Dropping a key bound to another origin adds no key. -/
theorem dropKeyBoundElsewhere_adds (raw : Json) (keys : Store) :
    keys.Adds nothing (dropKeyBoundElsewhere R raw keys) := by
  unfold dropKeyBoundElsewhere
  cases idOf raw with
  | none => exact .same rfl
  | some id =>
    have hget := get_held keys id
    dsimp only
    revert hget
    cases keys.get id with
    | mk found keys' =>
      intro hget
      split
      next k keys'' heq =>
        cases heq
        split
        · exact (Store.Adds.same hget).trans (delete_adds keys' id)
        · exact .same hget
      next heq => cases heq; exact .same hget

theorem dropped_adds (raws : List Json) : ∀ keys : Store,
    keys.Adds nothing (raws.foldl (fun keys raw => dropKeyBoundElsewhere R raw keys) keys) := by
  induction raws with
  | nil => exact fun keys => .same rfl
  | cons raw raws ih => exact fun keys => (dropKeyBoundElsewhere_adds raw keys).trans (ih _)

/-- The key that a migration binds: it was bound to nothing, and is to the entry's address now. -/
def Migrated (R : Rules) (keys : Store) (raws : List Json) (id : Text) (k : StoredKey) : Prop :=
  ∃ raw ∈ raws, idOf raw = some id ∧ k.origin = originOf R raw ∧ k.origin ≠ none ∧
    keys.held id = some ⟨k.secret, none⟩

/-- Migrating an entry adds at most the key the file had in clear. -/
theorem migrateEntry_adds (raw : Json) (keys : Store) :
    keys.Adds (Migrated R keys [raw]) (migrateEntry R raw keys).2.1 := by
  unfold migrateEntry
  cases hid : idOf raw with
  | none => exact .same rfl
  | some id =>
    dsimp only
    cases hget : keys.get id with
    | mk found keys' =>
      have hheld := get_held keys id
      rw [hget] at hheld
      split
      next k keys'' heq =>
        cases heq
        obtain ⟨hk, -⟩ := get_some hget
        split
        next hunbound =>
          cases ho : originOf R raw with
          | none => exact .same hheld
          | some o =>
            have hset := set_adds keys' id k.secret o
            dsimp only
            cases hs : keys'.set id k.secret o with
            | mk done keys'' =>
              rw [hs] at hset
              have hadds : keys.Adds (Migrated R keys [raw]) keys'' := by
                refine (Store.Adds.same hheld).trans (hset.mono ?_)
                rintro i x ⟨rfl, rfl⟩
                refine ⟨raw, List.mem_singleton_self raw, hid, ho.symm, Option.some_ne_none o, ?_⟩
                obtain ⟨secret, origin⟩ := k
                cases origin with
                | none => exact hk
                | some o => cases hunbound
              cases done with
              | ok u => exact hadds
              | error e => exact hadds
        · exact .same hheld
      next heq => cases heq; exact .same hheld

/-- Migrating a file adds at most the keys its entries had in clear. -/
theorem migrate_adds (raws : List Json) : ∀ keys : Store,
    keys.Adds (Migrated R keys raws) (migrate R raws keys).2.1 := by
  induction raws with
  | nil => exact fun keys => .same rfl
  | cons raw raws ih =>
    intro keys id k hk
    have hfirst := migrateEntry_adds (R := R) raw keys
    rcases ih (migrateEntry R raw keys).2.1 id k hk with hk | ⟨w, hw, hid, ho, hne, hheld⟩
    · rcases hfirst id k hk with hk | ⟨w, hw, hrest⟩
      · exact .inl hk
      · rw [List.mem_singleton.mp hw] at hrest
        exact .inr ⟨raw, List.mem_cons_self, hrest⟩
    · -- A key that the first entry bound is bound to nothing no more.
      rcases hfirst id ⟨k.secret, none⟩ hheld with hheld | ⟨_, _, _, _, hne', _⟩
      · exact .inr ⟨w, List.mem_cons_of_mem _ hw, hid, ho, hne, hheld⟩
      · exact absurd rfl hne'

/-! ## The calls -/

theorem reload_keys (rt : Runtime) : rt.keys.Adds nothing (reload R rt).2.keys := by
  unfold reload
  dsimp only
  cases parseFile R (readText rt.home.file) with
  | error why => exact .same rfl
  | ok read => exact dropped_adds read.1 rt.keys

theorem takeInFileChanges_keys (rt : Runtime) :
    rt.keys.Adds nothing (takeInFileChanges R rt).2.keys := by
  unfold takeInFileChanges
  split
  · have h := reload_keys (R := R) rt
    revert h
    cases reload R rt with
    | mk done rt' =>
      cases done with
      | ok problems => exact fun h => h
      | error e => exact fun h => h
  · exact .same rfl

theorem save_keys (entries : List Entry) (fails : Option Text) (rt : Runtime) :
    (save R entries fails rt).2.keys = rt.keys := by
  cases fails with
  | none => rfl
  | some e => rfl

/-- An `engine_add` adds at most its own secret, bound to the profile's origin. -/
theorem addLocked_keys (p : Profile) (secret : Option Text) (replace : Bool) (fails : Option Text)
    (rt : Runtime) :
    rt.keys.Adds (fun i k => secret = some k.secret ∧ i = p.id ∧ k.origin = p.origin R ∧
      k.origin ≠ none)
      (addLocked R p secret replace fails rt).2.keys := by
  have hbind := bindKey_adds (R := R) p secret rt.keys
  unfold addLocked
  cases admitted p.id replace rt.entries with
  | error e => exact .same rfl
  | ok u =>
    dsimp only
    revert hbind
    cases bindKey R p secret rt.keys with
    | mk done keys =>
      intro hbind
      cases done with
      | error e => exact hbind
      | ok u =>
        dsimp only
        cases build R (stored R p ((entryOf p.id rt.entries).map (·.raw))) with
        | error e => exact hbind
        | ok built =>
          cases fails with
          | none => exact hbind
          | some e => exact hbind

/-- Resolving a key writes none. -/
theorem resolve_held (env : Env) (keys : Store) (p : Profile) :
    (resolve R env keys p).2.held = keys.held := by
  unfold resolve
  cases p.keyRef with
  | none => rfl
  | env name =>
    dsimp only
    split
    · rfl
    · split <;> rfl
  | credMan =>
    have hget := get_held keys p.id
    dsimp only
    revert hget
    cases keys.get p.id with
    | mk found keys' =>
      intro hget
      split
      next heq => cases heq; exact hget
      next heq =>
        cases heq
        split
        · exact hget
        · split
          · split <;> exact hget
          · exact hget
      next heq => cases heq; exact hget
      next heq => cases heq; exact hget

/-- Asking whether a key is there writes none. -/
theorem keyPresent_held (env : Env) (e : Entry) (secret : Option Text) (keys : Store) :
    (keyPresent R env e secret keys).2.held = keys.held := by
  unfold keyPresent
  cases e.state with
  | ready p =>
    have hheld := resolve_held (R := R) env keys p
    dsimp only
    revert hheld
    cases resolve R env keys p with
    | mk found keys' =>
      intro hheld
      split
      next heq => cases heq; exact hheld
      next heq => cases heq; exact hheld
  | unsupported => rfl
  | invalid m => rfl

/-- A `set_key` adds at most the secret it was given, for the entry's origin. -/
theorem setKey_keys (env : Env) (id : Text) (secret : Option Text) (rt : Runtime) :
    rt.keys.Adds (fun i k => (i, k) ∈ (Call.setKey env id secret).gives R rt)
    (setKey R env id secret rt).2.keys := by
  unfold setKey
  cases he : entryOf id rt.entries with
  | none => exact .same rfl
  | some e =>
    dsimp only
    cases (keyPlace R e).1 with
    | env name => exact .same rfl
    | none => exact .same rfl
    | credMan =>
      dsimp only
      cases secret with
      | none =>
        have hdel : rt.keys.Adds (fun i k => (i, k) ∈ (Call.setKey env id none).gives R rt)
            (rt.keys.delete id).2 :=
          (delete_adds rt.keys id).mono fun _ _ h => h.elim
        dsimp only
        revert hdel
        cases rt.keys.delete id with
        | mk done keys =>
          intro hdel
          cases done with
          | error e' => exact hdel
          | ok u => exact hdel.trans (.same (keyPresent_held env e none keys))
      | some s =>
        dsimp only
        cases checkSecret s with
        | error f => exact .same rfl
        | ok u =>
          dsimp only
          cases ho : (keyPlace R e).2 with
          | none => exact .same rfl
          | some o =>
            have hset : rt.keys.Adds (fun i k => (i, k) ∈ (Call.setKey env id (some s)).gives R rt)
                (rt.keys.set id s o).2 :=
              (set_adds rt.keys id s o).mono (by
                rintro i k ⟨rfl, rfl⟩
                unfold Call.gives
                dsimp only
                rw [he]
                dsimp only
                rw [ho]
                exact List.mem_singleton_self _)
            dsimp only
            revert hset
            cases rt.keys.set id s o with
            | mk done keys =>
              intro hset
              cases done with
              | error e' => exact hset
              | ok u => exact hset.trans (.same (keyPresent_held env e (some s) keys))

/-- **A call stores no key but the one of its request**, bound to the address of the profile it
names. -/
theorem Call.run_keys (c : Call) (fails : Option Text) (rt : Runtime) :
    rt.keys.Adds (fun i k => (i, k) ∈ c.gives R rt) (c.run R fails rt).2.keys := by
  have htook : rt.keys.Adds (fun i k => (i, k) ∈ c.gives R rt) (takeInFileChanges R rt).2.keys :=
    (takeInFileChanges_keys rt).mono fun _ _ h => h.elim
  cases c with
  | add engine secret replace =>
    unfold Call.run Engines.add
    dsimp only
    cases hreq : requested R engine secret rt.entries with
    | error e => exact .same rfl
    | ok p =>
      dsimp only
      revert htook
      cases takeInFileChanges R rt with
      | mk done rt' =>
        intro htook
        cases done with
        | error e => exact htook
        | ok u =>
          refine htook.trans ((addLocked_keys p secret replace fails rt').mono ?_)
          rintro i ⟨s, origin⟩ ⟨rfl, rfl, ho, hne⟩
          unfold Call.gives
          dsimp only at hreq ⊢
          rw [hreq]
          obtain ⟨o, rfl⟩ := Option.ne_none_iff_exists'.mp hne
          dsimp only at ho ⊢
          rw [← ho]
          exact List.mem_singleton_self _
  | remove id forgetKey =>
    unfold Call.run Engines.remove
    dsimp only
    revert htook
    cases takeInFileChanges R rt with
    | mk done rt' =>
      intro htook
      cases done with
      | error e => exact htook
      | ok u =>
        dsimp only
        cases entryOf id rt'.entries with
        | none => exact htook
        | some e =>
          have hsame := save_keys (R := R) (rt'.entries.erase e) fails rt'
          have hdel := delete_adds (save R (rt'.entries.erase e) fails rt').2.keys id
          refine htook.trans ((Store.Adds.same (congrArg Store.held hsame)).trans ?_)
          cases forgetKey with
          | true => exact hdel.mono fun _ _ h => h.elim
          | false => exact .same rfl
  | reload => exact (reload_keys (R := R) rt).mono fun _ _ h => h.elim
  | setKey env id secret => exact setKey_keys env id secret rt

/-- A start binds the keys that a file of format 1 left unbound. -/
theorem load_keys (home : Home) (keys : Store) (copied : Bool) (fails : Option Text) :
    keys.Adds (fun id k => ∃ raws, parseFile R (readText home.file) = .ok (raws, true) ∧
      Migrated R keys raws id k)
      (load R home keys copied fails).2.keys := by
  cases hp : parseFile R (readText home.file) with
  | error why =>
    rw [load_error hp]
    exact .same rfl
  | ok read =>
    obtain ⟨raws, legacy⟩ := read
    cases legacy with
    | false =>
      rw [load_ok hp]
      exact .same rfl
    | true =>
      rw [load_legacy hp, save_keys]
      exact (migrate_adds raws keys).mono fun id k h => ⟨raws, rfl, h⟩

end Sonara.Engines
