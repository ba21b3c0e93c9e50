import Sonara.Keymap.Overrides
import Sonara.Lib.Except

/-!
# No two actions have the same chord

What the file's operations do to the loaded keymap: `bind` gives one action a chord that no
other action has, `unbind` takes one away, `reset` gives the defaults, and the bindings of the
other actions stay. So in every history from no file the chords are apart.
-/

namespace Sonara.Keymap

open Sonara.Text

variable {α : Type} {F : Format α} {file : Option α} {action : Action} {b : Binding}
  {list out : Overrides}

/-! ## The overrides as a map -/

/-- The override of an action. -/
def Overrides.get? (list : Overrides) (action : Action) : Option Binding :=
  (list.find? (·.1 = action)).map Prod.snd

/-- An action has one override. -/
def Overrides.Distinct (list : Overrides) : Prop := (list.map Prod.fst).Nodup

/-- What is in the overrides after a `put` was there, or is of that action. -/
theorem Overrides.mem_put {wins : Bool} {x : Action × Binding} (hx : x ∈ list.put wins action b) :
    x ∈ list ∨ x.1 = action := by
  induction list with
  | nil =>
    rw [List.mem_singleton.mp hx]
    exact .inr rfl
  | cons y list ih =>
    unfold Overrides.put at hx
    split at hx
    · split at hx
      · rcases List.mem_cons.mp hx with rfl | hx
        · exact .inr rfl
        · exact .inl (List.mem_cons_of_mem y hx)
      · exact .inl hx
    · rcases List.mem_cons.mp hx with rfl | hx
      · exact .inl List.mem_cons_self
      · exact (ih hx).imp_left (List.mem_cons_of_mem y)

/-- A `put` keeps one override for each action. -/
theorem Overrides.Distinct.put (h : list.Distinct) (wins : Bool) (action : Action) (b : Binding) :
    (list.put wins action b).Distinct := by
  unfold Overrides.Distinct at h ⊢
  induction list with
  | nil => exact List.nodup_singleton action
  | cons y list ih =>
    rw [List.map_cons, List.nodup_cons] at h
    unfold Overrides.put
    split
    next hy =>
      split
      · rw [List.map_cons, List.nodup_cons]
        exact ⟨hy ▸ h.1, h.2⟩
      · rw [List.map_cons, List.nodup_cons]
        exact h
    next hy =>
      rw [List.map_cons, List.nodup_cons]
      refine ⟨fun hmem => ?_, ih h.2⟩
      obtain ⟨x, hx, hfst⟩ := List.mem_map.mp hmem
      rcases Overrides.mem_put hx with hx | hx
      · exact h.1 (List.mem_map.mpr ⟨x, hx, hfst⟩)
      · exact hy (hfst.symm.trans hx)

theorem Overrides.get?_cons (x : Action × Binding) (list : Overrides) (a : Action) :
    Overrides.get? (x :: list) a = if x.1 = a then some x.2 else list.get? a := by
  unfold Overrides.get?
  by_cases h : x.1 = a
  · rw [List.find?_cons_of_pos (by simpa using h), if_pos h]
    rfl
  · rw [List.find?_cons_of_neg (by simpa using h), if_neg h]

/-- What is put over the binding that is there is what the action has. -/
theorem Overrides.get?_put (list : Overrides) (action : Action) (b : Binding) :
    (list.put true action b).get? = Function.update list.get? action (some b) := by
  funext a
  induction list with
  | nil =>
    show Overrides.get? [(action, b)] a = _
    rw [Overrides.get?_cons]
    by_cases h : action = a
    · rw [if_pos h, h, Function.update_self]
    · rw [if_neg h, Function.update_of_ne (Ne.symm h)]
  | cons y list ih =>
    unfold Overrides.put
    by_cases hy : y.1 = action
    · rw [if_pos hy, if_pos rfl, Overrides.get?_cons]
      by_cases h : action = a
      · rw [if_pos h, h, Function.update_self]
      · rw [if_neg h, Function.update_of_ne (Ne.symm h), Overrides.get?_cons, if_neg (hy ▸ h)]
    · rw [if_neg hy, Overrides.get?_cons, ih]
      by_cases h : y.1 = a
      · have hne : a ≠ action := fun heq => hy (h.trans heq)
        rw [if_pos h, Function.update_of_ne hne, Overrides.get?_cons, if_pos h]
      · rw [if_neg h]
        by_cases ha : a = action
        · rw [ha, Function.update_self, Function.update_self]
        · rw [Function.update_of_ne ha, Function.update_of_ne ha, Overrides.get?_cons, if_neg h]

/-- Of distinct overrides each sets its own action and leaves the others. -/
theorem foldl_set (list : Overrides) (km : Map) (hd : list.Distinct) (a : Action) :
    (list.foldl (fun km x => km.set x.1 x.2) km) a = (list.get? a).getD (km a) := by
  induction list generalizing km with
  | nil => rfl
  | cons x list ih =>
    have hd' := List.nodup_cons.mp hd
    rw [List.foldl_cons, ih _ hd'.2, Overrides.get?_cons]
    by_cases h : x.1 = a
    · have hnone : Overrides.get? list a = none := by
        unfold Overrides.get?
        rw [Option.map_eq_none_iff, List.find?_eq_none]
        intro y hy hya
        refine hd'.1 (List.mem_map.mpr ⟨y, hy, ?_⟩)
        exact (of_decide_eq_true hya).trans h.symm
      rw [if_pos h, hnone]
      show Function.update km x.1 x.2 a = x.2
      rw [h, Function.update_self]
    · rw [if_neg h]
      congr 1
      exact Function.update_of_ne (Ne.symm h) _ _

/-- A loaded binding is the override or the default. -/
theorem overlay_eq (hd : list.Distinct) (a : Action) :
    overlay list a = (list.get? a).getD (defaultBinding a) :=
  foldl_set list defaults hd a

/-! ## What is written is read -/

theorem stringsOf_map (ss : List Text) : stringsOf (ss.map .string) = some ss := by
  induction ss with
  | nil => rfl
  | cons s ss ih =>
    rw [List.map_cons]
    unfold stringsOf
    rw [ih]
    rfl

/-- A binding is read back as it was written. -/
theorem Binding.ofJson_toJson (b : Binding) : Binding.ofJson b.toJson = some b := by
  have hmods : Binding.modsOf (.array (b.mods.map .string)) = some b.mods := stringsOf_map b.mods
  have hkey : Binding.keyOf (b.key.elim .null .string) = some b.key := by
    cases b.key with
    | none => rfl
    | some k => rfl
  have hfirst : Json.field (txt "key") [(txt "key", b.key.elim .null .string),
    (txt "mods", .array (b.mods.map .string))] =
      some (b.key.elim .null .string) := rfl
  have hsecond : Json.field (txt "mods") [(txt "key", b.key.elim .null .string),
    (txt "mods", .array (b.mods.map .string))] =
      some (.array (b.mods.map .string)) := rfl
  unfold Binding.toJson Binding.ofJson
  dsimp only
  rw [hfirst, hsecond, Option.elim_some, Option.elim_some, hkey, hmods]
  rfl

/-- The fields of a map, in the order of their keys. -/
def Ascending (fields : List (Text × Json)) : Prop := fields.Pairwise (·.1 < ·.1)

/-- A field after an insert is the new one or was there. -/
theorem mem_insert {key : Text} {v : Json} {f : Text × Json} {fields : List (Text × Json)}
    (hf : f ∈ Json.insert key v fields) : f = (key, v) ∨ f ∈ fields := by
  induction fields with
  | nil => exact .inl (List.mem_singleton.mp hf)
  | cons g fields ih =>
    unfold Json.insert at hf
    split at hf
    · rcases List.mem_cons.mp hf with rfl | hf
      · exact .inl rfl
      · exact .inr (List.mem_cons_of_mem g hf)
    · split at hf
      · rcases List.mem_cons.mp hf with rfl | hf
        · exact .inl rfl
        · exact .inr hf
      · rcases List.mem_cons.mp hf with rfl | hf
        · exact .inr List.mem_cons_self
        · exact (ih hf).imp_right (List.mem_cons_of_mem g)

/-- An insert keeps the keys ascending. -/
theorem Ascending.insert {fields : List (Text × Json)} (h : Ascending fields) (key : Text)
    (v : Json) :
    Ascending (Json.insert key v fields) := by
  induction fields with
  | nil => exact List.pairwise_singleton _ _
  | cons g fields ih =>
    obtain ⟨hg, hfields⟩ := List.pairwise_cons.mp h
    unfold Json.insert
    split
    next heq => exact List.pairwise_cons.mpr ⟨fun f hf => heq ▸ hg f hf, hfields⟩
    next hne =>
      split
      next hlt =>
        refine List.pairwise_cons.mpr ⟨fun f hf => ?_, h⟩
        rcases List.mem_cons.mp hf with rfl | hf
        · exact hlt
        · exact List.lt_trans hlt (hg f hf)
      next hnlt =>
        have hgt : g.1 < key := by
          by_contra hngt
          exact hne (List.le_antisymm (List.not_lt.mp hnlt) (List.not_lt.mp hngt))
        refine List.pairwise_cons.mpr ⟨fun f hf => ?_, ih hfields⟩
        rcases mem_insert hf with rfl | hf
        · exact hgt
        · exact hg f hf

/-- The fields of what is written are bindings of actions. -/
def Written (fields : List (Text × Json)) : Prop :=
  Ascending fields ∧ ∀ f ∈ fields, ∃ (a : Action) (b : Binding), f = (a.asStr, b.toJson)

theorem foldl_insert_written (list : Overrides) {fields : List (Text × Json)} (h : Written fields) :
    Written (list.foldl (fun map x => Json.insert x.1.asStr x.2.toJson map) fields) := by
  induction list generalizing fields with
  | nil => exact h
  | cons x list ih =>
    refine ih ⟨h.1.insert _ _, fun f hf => ?_⟩
    rcases mem_insert hf with rfl | hf
    · exact ⟨x.1, x.2, rfl⟩
    · exact h.2 f hf

/-- Writing distinct overrides gives each action's field its binding. -/
theorem foldl_insert_field (list : Overrides) (hd : list.Distinct) (fields : List (Text × Json))
    (a : Action) :
    Json.field a.asStr (list.foldl (fun map x => Json.insert x.1.asStr x.2.toJson map) fields) =
      ((list.get? a).map Binding.toJson).or (Json.field a.asStr fields) := by
  induction list generalizing fields with
  | nil => rfl
  | cons x list ih =>
    have hd' := List.nodup_cons.mp hd
    rw [List.foldl_cons, ih hd'.2, Overrides.get?_cons]
    by_cases h : x.1 = a
    · have hnone : Overrides.get? list a = none := by
        unfold Overrides.get?
        rw [Option.map_eq_none_iff, List.find?_eq_none]
        intro y hy hya
        refine hd'.1 (List.mem_map.mpr ⟨y, hy, ?_⟩)
        exact (of_decide_eq_true hya).trans h.symm
      rw [if_pos h, hnone, h, Json.field_insert_self]
      rfl
    · have hne : a.asStr ≠ x.1.asStr := fun heq => h (Action.asStr_inj heq).symm
      rw [if_neg h, Json.field_insert_of_ne hne]

/-- One field of what is written. -/
theorem takeOverride_written (out : Overrides) (a : Action) (b : Binding) :
    takeOverride out (a.asStr, b.toJson) = out.put true a b := by
  unfold takeOverride
  dsimp only
  rw [Action.parse_asStr, Binding.ofJson_toJson]
  dsimp only
  rw [decide_eq_true rfl]

/-- Reading written overrides gives each action its binding, or the earlier one. -/
theorem foldl_takeOverride {fields : List (Text × Json)} (h : Written fields) (out : Overrides)
    (a : Action) :
    (fields.foldl takeOverride out).get? a =
      ((Json.field a.asStr fields).bind Binding.ofJson).or (out.get? a) := by
  induction fields generalizing out with
  | nil => rfl
  | cons f fields ih =>
    obtain ⟨hf, hfields⟩ := List.pairwise_cons.mp h.1
    obtain ⟨a', b, rfl⟩ := h.2 f List.mem_cons_self
    have hrest : Written fields := ⟨hfields, fun g hg => h.2 g (List.mem_cons_of_mem _ hg)⟩
    rw [List.foldl_cons, ih hrest, takeOverride_written, Overrides.get?_put]
    by_cases ha : a = a'
    · subst ha
      have hnone : Json.field a.asStr fields = none := by
        unfold Json.field
        rw [Option.map_eq_none_iff, List.find?_eq_none]
        intro g hg heq
        have hlt := hf g hg
        rw [eq_of_beq heq] at hlt
        exact List.lt_irrefl _ hlt
      have hfirst : Json.field a.asStr ((a.asStr, b.toJson) :: fields) = some b.toJson := by
        unfold Json.field
        rw [List.find?_cons_of_pos (by simp)]
        rfl
      rw [hnone, hfirst, Function.update_self, Option.bind_some, Binding.ofJson_toJson]
      rfl
    · have hskip : Json.field a.asStr ((a'.asStr, b.toJson) :: fields) =
          Json.field a.asStr fields := by
        unfold Json.field
        rw [List.find?_cons_of_neg]
        simpa using fun heq => ha (Action.asStr_inj heq).symm
      rw [hskip, Function.update_of_ne ha]

theorem foldl_takeOverride_distinct (fields : List (Text × Json)) (h : out.Distinct) :
    (fields.foldl takeOverride out).Distinct := by
  induction fields generalizing out with
  | nil => exact h
  | cons f fields ih =>
    refine ih ?_
    unfold takeOverride
    split
    · exact h.put _ _ _
    · exact h

theorem readOverrides_distinct (F : Format α) (file : Option α) :
    (readOverrides F file).Distinct := by
  unfold readOverrides
  split
  · exact foldl_takeOverride_distinct _ List.nodup_nil
  · exact List.nodup_nil

theorem load_eq (F : Format α) (file : Option α) (a : Action) :
    load F file a = ((readOverrides F file).get? a).getD (defaultBinding a) :=
  overlay_eq (readOverrides_distinct F file) a

/-- **The overrides that are written are loaded.** -/
theorem load_written (hprint : ∀ list, F.parse (F.print (document list)) = some (document list))
    (hd : list.Distinct)
    (a : Action) : load F (some (F.print (document list))) a = (list.get? a).getD
    (defaultBinding a) := by
  have hread : readOverrides F (some (F.print (document list))) =
      (list.foldl (fun map x => Json.insert x.1.asStr x.2.toJson map) []).foldl takeOverride
        [] := by
    unfold readOverrides
    rw [Option.bind_some, hprint]
    rfl
  have hwritten : Written (list.foldl (fun map x => Json.insert x.1.asStr x.2.toJson map) []) :=
    foldl_insert_written list ⟨.nil, fun f hf => absurd hf List.not_mem_nil⟩
  rw [load_eq, hread, foldl_takeOverride hwritten, foldl_insert_field list hd]
  cases list.get? a with
  | none => rfl
  | some b =>
    show (((some b.toJson).bind Binding.ofJson).or none).getD _ = b
    rw [Option.bind_some, Binding.ofJson_toJson]
    rfl

/-! ## A new chord -/

theorem foldl_or (mods : List Text) (mask v : Nat) :
    mods.foldl (fun mask m => mask ||| (modMask m).getD 0) mask ||| v =
      mods.foldl (fun mask m => mask ||| (modMask m).getD 0) (mask ||| v) := by
  induction mods generalizing mask with
  | nil => rfl
  | cons m mods ih =>
    rw [List.foldl_cons, List.foldl_cons, ih, Nat.or_assoc, Nat.or_comm _ v, ← Nat.or_assoc]

theorem maskOf_snoc (mods : List Text) (m : Text) :
    maskOf (mods ++ [m]) = maskOf mods ||| (modMask m).getD 0 := by
  unfold maskOf
  rw [List.foldl_append]
  rfl

/-- A modifier that is held adds nothing. -/
theorem maskOf_mem {mods : List Text} {m : Text} (hm : m ∈ mods) :
    maskOf mods ||| (modMask m).getD 0 = maskOf mods := by
  have hfrom : ∀ mask : Nat, mods.foldl (fun mask m => mask ||| (modMask m).getD 0) mask |||
    (modMask m).getD 0 =
      mods.foldl (fun mask m => mask ||| (modMask m).getD 0) mask := by
    induction mods with
    | nil => cases hm
    | cons m' mods ih =>
      intro mask
      rw [List.foldl_cons]
      rcases List.mem_cons.mp hm with rfl | hm
      · rw [foldl_or, Nat.or_assoc, Nat.or_self]
      · exact ih hm _
  exact hfrom 0

/-- The names that are kept hold what all of them do. -/
theorem holdMods_spec {mods clean clean' : List Text} {held held' : Nat}
    (h : holdMods mods (held, clean) = .ok (held', clean')) (hheld : maskOf clean = held)
    (hknown : ∀ m ∈ clean, modMask m ≠ none) :
    maskOf clean' = held' ∧ ∀ m ∈ clean', modMask m ≠ none := by
  induction mods generalizing held clean with
  | nil =>
    obtain ⟨rfl, rfl⟩ := Prod.mk.inj (Except.ok.inj h)
    exact ⟨hheld, hknown⟩
  | cons m mods ih =>
    unfold holdMods at h
    cases hmask : modMask m with
    | none =>
      rw [hmask] at h
      cases h
    | some mask =>
      rw [hmask] at h
      have hname : modMask (lower m) = some mask := (modMask_lower m).trans hmask
      by_cases hin : lower m ∈ clean
      · dsimp only at h
        rw [if_pos (List.contains_iff_mem.mpr hin)] at h
        refine ih h ?_ hknown
        have hsame := maskOf_mem hin
        rw [hname, Option.getD_some] at hsame
        rw [← hheld, hsame]
      · dsimp only at h
        rw [if_neg fun hc => hin (List.contains_iff_mem.mp hc)] at h
        refine ih h ?_ fun n hn => ?_
        · rw [maskOf_snoc, hname, hheld]
          rfl
        · rcases List.mem_append.mp hn with hn | hn
          · exact hknown n hn
          · rw [List.mem_singleton.mp hn, hname]
            exact Option.some_ne_none mask

/-- What `bind` checks: the binding is a chord with Ctrl, Alt or Win that no other action has. -/
theorem checkBinding_spec {km : Map} {key : Text} {mods : List Text}
    (h : checkBinding km action key mods = .ok b) : ∃ vk mask,
      resolveOne action b = (some ⟨action, vk, mask⟩, []) ∧ keyCode (b.key.getD []) = some vk ∧
        mask &&& (MOD_CTRL ||| MOD_ALT ||| MOD_WIN) ≠ 0 ∧
        ∀ r ∈ (resolve km).1, r.action ≠ action → ¬(r.vk = vk ∧ r.mods = mask) := by
  unfold checkBinding at h
  dsimp only at h
  split at h
  · cases h
  next hkey =>
    split at h
    · cases h
    next vk hvk =>
      obtain ⟨⟨held, clean⟩, hheld, h⟩ := Lib.bind_ok h
      dsimp only at h
      split at h
      · cases h
      next hmask =>
        split at h
        · cases h
        next hfree =>
          obtain rfl := Except.ok.inj h
          obtain ⟨hmaskOf, hknown⟩ := holdMods_spec hheld rfl fun m hm => absurd hm List.not_mem_nil
          refine ⟨vk, held, ?_, hvk, hmask, fun r hr hne hsame => ?_⟩
          · rw [resolveOne_known hkey hvk hknown, hmaskOf]
          · have hno := List.find?_eq_none.mp hfree r hr
            exact hno (decide_eq_true ⟨hne, hsame.1, hsame.2⟩)

/-- The chords are apart, and none is a problem. -/
structure Sound (km : Map) : Prop where
  apart : Apart km
  noProblem : (resolve km).2 = []

theorem defaults_sound : Sound defaults := ⟨defaults_apart, defaults_noProblem⟩

variable {km : Map} {r : Resolved}

theorem resolve_set (hr : r ∈ (resolve (km.set action b)).1) :
    r.action = action ∧ (resolveOne action b).1 = some r ∨ r.action ≠ action ∧
    r ∈ (resolve km).1 := by
  have hone := mem_resolve.mp hr
  unfold Map.set at hone
  by_cases ha : r.action = action
  · rw [ha, Function.update_self] at hone
    exact .inl ⟨ha, hone⟩
  · rw [Function.update_of_ne ha] at hone
    exact .inr ⟨ha, mem_resolve.mpr hone⟩

theorem resolve_set_noProblem (h : (resolve km).2 = []) (hb : (resolveOne action b).2 = []) :
    (resolve (km.set action b)).2 = [] := by
  rw [resolve_noProblem] at h ⊢
  intro a
  unfold Map.set
  by_cases ha : a = action
  · rw [ha, Function.update_self]
    exact hb
  · rw [Function.update_of_ne ha]
    exact h a

/-- A chord that is free keeps the chords apart. -/
theorem Sound.bind (h : Sound km) {vk mask : Nat}
    (hb : resolveOne action b = (some ⟨action, vk, mask⟩, []))
    (hfree : ∀ r ∈ (resolve km).1, r.action ≠ action → ¬(r.vk = vk ∧ r.mods = mask)) :
    Sound (km.set action b) where
  apart x hx y hy hvk hmods := by
    rcases resolve_set hx with ⟨hxa, hxr⟩ | ⟨hxa, hx⟩
    · rcases resolve_set hy with ⟨hya, -⟩ | ⟨hya, hy⟩
      · exact hxa.trans hya.symm
      · rw [hb] at hxr
        obtain rfl := Option.some.inj hxr
        exact absurd ⟨hvk.symm, hmods.symm⟩ (hfree y hy hya)
    · rcases resolve_set hy with ⟨hya, hyr⟩ | ⟨-, hy⟩
      · rw [hb] at hyr
        obtain rfl := Option.some.inj hyr
        exact absurd ⟨hvk, hmods⟩ (hfree x hx hxa)
      · exact h.apart x hx y hy hvk hmods
  noProblem := resolve_set_noProblem h.noProblem (by rw [hb])

theorem Sound.unbind (h : Sound km) (action : Action) : Sound (km.set action .unbound) where
  apart x hx y hy hvk hmods := by
    rcases resolve_set hx with ⟨-, hxr⟩ | ⟨-, hx⟩
    · cases hxr
    · rcases resolve_set hy with ⟨-, hyr⟩ | ⟨-, hy⟩
      · cases hyr
      · exact h.apart x hx y hy hvk hmods
  noProblem := resolve_set_noProblem h.noProblem rfl

/-! ## The operations on the file -/

section

variable (hprint : ∀ list, F.parse (F.print (document list)) = some (document list)) {path : Text}
  {fails : Option Text} {key : Text} {mods : List Text}

include hprint

theorem writeOverrides_loads (hd : list.Distinct)
    (hok : (writeOverrides F path fails file list).1 = .ok ())
    (a : Action) : load F (writeOverrides F path fails file list).2 a = (list.get? a).getD
    (defaultBinding a) := by
  unfold writeOverrides at hok ⊢
  cases fails with
  | some e => cases hok
  | none => exact load_written hprint hd a

/-- A bind that succeeds loads as the keymap with that action set. -/
theorem bind_loads (hok : (bind F path fails file action key mods).1 = .ok ()) :
    ∃ b, checkBinding (load F file) action key mods = .ok b ∧
      load F (bind F path fails file action key mods).2 = (load F file).set action b := by
  unfold bind at hok ⊢
  cases hcheck : checkBinding (load F file) action key mods with
  | error e =>
    rw [hcheck] at hok
    cases hok
  | ok b =>
    rw [hcheck] at hok
    refine ⟨b, rfl, funext fun a => ?_⟩
    have hd := (readOverrides_distinct F file).put true action b
    dsimp only at hok ⊢
    rw [writeOverrides_loads hprint hd hok, Overrides.get?_put]
    unfold Map.set
    by_cases ha : a = action
    · rw [ha, Function.update_self, Function.update_self]
      rfl
    · rw [Function.update_of_ne ha, Function.update_of_ne ha, load_eq]

/-- An unbind that succeeds loads as the keymap with that action unbound. -/
theorem unbind_loads (hok : (unbind F path fails file action).1 = .ok ()) :
    load F (unbind F path fails file action).2 = (load F file).set action .unbound := by
  have hmem : ∀ x ∈ (readOverrides F file).filter (·.1 ≠ action), x.1 ≠ action := fun x hx => by
    simpa using (List.mem_filter.mp hx).2
  have hkept : Overrides.Distinct ((readOverrides F file).filter (·.1 ≠ action)) :=
    (readOverrides_distinct F file).sublist (List.filter_sublist.map _)
  have hget : ∀ a, a ≠ action → Overrides.get? ((readOverrides F file).filter (·.1 ≠ action)) a =
      (readOverrides F file).get? a := by
    intro a ha
    unfold Overrides.get?
    rw [List.find?_filter]
    congr 2
    funext x
    by_cases hx : x.1 = a
    · simp [hx, ha]
    · simp [hx]
  have hgone : Overrides.get? ((readOverrides F file).filter (·.1 ≠ action)) action = none := by
    unfold Overrides.get?
    rw [Option.map_eq_none_iff, List.find?_eq_none]
    intro x hx heq
    exact hmem x hx (of_decide_eq_true heq)
  unfold unbind at hok ⊢
  dsimp only at hok ⊢
  funext a
  unfold Map.set
  by_cases hdefault : (defaultBinding action).isBound = true
  · rw [if_pos hdefault] at hok ⊢
    have hd : Overrides.Distinct ((readOverrides F file).filter
        (·.1 ≠ action) ++ [(action, Binding.unbound)]) := by
      unfold Overrides.Distinct
      rw [List.map_append]
      refine List.nodup_append'.mpr ⟨hkept, List.nodup_singleton _, fun x hx hx' => ?_⟩
      obtain ⟨y, hy, rfl⟩ := List.mem_map.mp hx
      exact hmem y hy (List.mem_singleton.mp hx')
    rw [writeOverrides_loads hprint hd hok]
    have happend : ∀ a, Overrides.get?
      ((readOverrides F file).filter (·.1 ≠ action) ++ [(action, Binding.unbound)]) a =
        (Overrides.get? ((readOverrides F file).filter (·.1 ≠ action)) a).or
          (Overrides.get? [(action, Binding.unbound)] a) := by
      intro a
      unfold Overrides.get?
      rw [List.find?_append, Option.map_or]
    rw [happend]
    by_cases ha : a = action
    · rw [ha, hgone, Overrides.get?_cons, if_pos rfl, Function.update_self]
      rfl
    · rw [hget a ha, Overrides.get?_cons, if_neg (Ne.symm ha), Function.update_of_ne ha, load_eq]
      show (((readOverrides F file).get? a).or none).getD _ = _
      rw [Option.or_none]
  · rw [if_neg hdefault] at hok ⊢
    rw [writeOverrides_loads hprint hkept hok]
    by_cases ha : a = action
    · rw [ha, hgone, Function.update_self]
      revert hdefault
      cases action <;> decide
    · rw [hget a ha, Function.update_of_ne ha, load_eq]

theorem reset_loads (hok : (reset F path fails file).1 = .ok ()) :
    load F (reset F path fails file).2 = defaults := by
  have hd : Overrides.Distinct ((Action.all.map fun a => (a, defaults a)).filter
      (·.2.isBound)) := by
    unfold Overrides.Distinct
    decide
  funext a
  unfold reset at hok ⊢
  rw [writeOverrides_loads hprint hd hok]
  cases a <;> rfl

end

theorem writeOverrides_error {path : Text} {fails : Option Text} {e : Text}
    (h : (writeOverrides F path fails file list).1 = .error e) :
    (writeOverrides F path fails file list).2 = file := by
  unfold writeOverrides at h ⊢
  cases fails with
  | some e => rfl
  | none => cases h

theorem bind_error {path : Text} {fails : Option Text} {key : Text} {mods : List Text} {e : Text}
    (h : (bind F path fails file action key mods).1 = .error e) :
    (bind F path fails file action key mods).2 = file := by
  unfold bind at h ⊢
  cases hcheck : checkBinding (load F file) action key mods with
  | error e => rfl
  | ok b =>
    rw [hcheck] at h
    exact writeOverrides_error h

/-! ## Histories -/

/-- An operation on the file, with the error of the file operation, if any. -/
inductive Edit where
  | bind (action : Action) (key : Text) (mods : List Text) (fails : Option Text)
  | unbind (action : Action) (fails : Option Text)
  | reset (fails : Option Text)
  deriving DecidableEq, Repr

variable (F) in
def Edit.run (path : Text) (file : Option α) : Edit → Except Text Unit × Option α
  | .bind action key mods fails => Keymap.bind F path fails file action key mods
  | .unbind action fails => Keymap.unbind F path fails file action
  | .reset fails => Keymap.reset F path fails file

variable (F) in
/-- The file after these operations, from none. -/
def history (path : Text) (edits : List Edit) : Option α :=
  edits.foldl (fun file e => (e.run F path file).2) none

/-- Every edit leaves a keymap that loads sound, whether it succeeds or not. -/
theorem Edit.run_sound (hprint : ∀ list, F.parse (F.print (document list)) = some (document list))
    (path : Text) (h : Sound (load F file)) (e : Edit) : Sound (load F (e.run F path file).2) := by
  cases hr : (e.run F path file).1 with
  | error why =>
    have hsame : (e.run F path file).2 = file := by
      cases e with
      | bind action key mods fails => exact bind_error hr
      | unbind action fails => exact writeOverrides_error hr
      | reset fails => exact writeOverrides_error hr
    rw [hsame]
    exact h
  | ok u =>
    cases e with
    | bind action key mods fails =>
      obtain ⟨b, hcheck, hloads⟩ := bind_loads hprint hr
      obtain ⟨vk, mask, hb, -, -, hfree⟩ := checkBinding_spec hcheck
      show Sound (load F (Keymap.bind F path fails file action key mods).2)
      rw [hloads]
      exact h.bind hb hfree
    | unbind action fails =>
      show Sound (load F (Keymap.unbind F path fails file action).2)
      rw [unbind_loads hprint hr]
      exact h.unbind action
    | reset fails =>
      show Sound (load F (Keymap.reset F path fails file).2)
      rw [reset_loads hprint hr]
      exact defaults_sound

theorem history_sound (hprint : ∀ list, F.parse (F.print (document list)) = some (document list))
    (path : Text) (edits : List Edit) : Sound (load F (history F path edits)) := by
  unfold history
  have hstart : Sound (load F none) := defaults_sound
  revert hstart
  generalize (none : Option α) = file
  intro hstart
  induction edits generalizing file with
  | nil => exact hstart
  | cons e edits ih => exact ih _ (Edit.run_sound hprint path hstart e)

/-- **A bound chord is the action's alone.** A `bind` that fails leaves the file. One that succeeds
gives the action a chord with a known key and Ctrl, Alt or Win that no other action has, and leaves
the others their bindings. From no file, no history of `bind`, `unbind` and `reset` gives two
actions one chord. -/
theorem keymap_unique (hprint : ∀ list, F.parse (F.print (document list)) = some (document list))
    (path : Text) :
    (∀ (file : Option α) action key mods fails,
      (∀ e, (bind F path fails file action key mods).1 = .error e →
        (bind F path fails file action key mods).2 = file) ∧
      ((bind F path fails file action key mods).1 = .ok () → ∃ vk mask,
        ⟨action, vk, mask⟩ ∈ (resolve (load F (bind F path fails file action key mods).2)).1 ∧
        mask &&& (MOD_CTRL ||| MOD_ALT ||| MOD_WIN) ≠ 0 ∧
        (∀ other, other ≠ action →
          load F (bind F path fails file action key mods).2 other = load F file other) ∧
        ∀ r ∈ (resolve (load F (bind F path fails file action key mods).2)).1,
          r.vk = vk → r.mods = mask → r.action = action)) ∧
    ∀ edits, (resolve (load F (history F path edits))).2 = [] ∧ Apart
    (load F (history F path edits)) := by
  refine ⟨fun file action key mods fails => ⟨fun e he => bind_error he, fun hok => ?_⟩, fun edits =>
    ⟨(history_sound hprint path edits).noProblem, (history_sound hprint path edits).apart⟩⟩
  obtain ⟨b, hcheck, hloads⟩ := bind_loads hprint hok
  obtain ⟨vk, mask, hb, -, hmask, hfree⟩ := checkBinding_spec hcheck
  rw [hloads]
  refine ⟨vk, mask, ?_, hmask, fun other hne => Function.update_of_ne hne _ _,
    fun r hr hvk hmods => ?_⟩
  · refine mem_resolve.mpr ?_
    show (resolveOne action (Function.update (load F file) action b action)).1 = _
    rw [Function.update_self, hb]
  · by_contra hne
    rcases resolve_set hr with ⟨ha, -⟩ | ⟨-, hr⟩
    · exact hne ha
    · exact hfree r hr hne ⟨hvk, hmods⟩

/-- Faster on Win+Alt+F, in a home without a keymap. -/
theorem keymap_unique_faster :
    let F : Format Json := { parse := some, print := id }
    let file := (bind F [] none none .faster (txt " F ") [txt "Cmd", txt "alt", txt "win"]).2
    load F file .faster = { key := some (txt "f"), mods := [txt "cmd", txt "alt", txt "win"] } ∧
      ∀ other, other ≠ .faster → load F file other = load F none other := by
  intro F file
  have hok : (bind F [] none none .faster (txt " F ") [txt "Cmd", txt "alt", txt "win"]).1 = .ok
    () := by decide
  obtain ⟨vk, mask, -, -, hothers, -⟩ :=
    ((keymap_unique (F := F) (fun _ => rfl) []).1 none .faster (txt " F ")
    [txt "Cmd", txt "alt", txt "win"] none).2 hok
  exact ⟨by decide, hothers⟩

end Sonara.Keymap
