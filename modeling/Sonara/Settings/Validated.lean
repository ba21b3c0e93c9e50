import Mathlib.Data.Char
import Mathlib.Data.List.Lex
import Mathlib.Data.List.Nodup
import Sonara.Lib.Except
import Sonara.Settings.Schema

/-!
# What is stored is accepted as it is

`validate` accepts what it gave (`validate_idem`), so a value survives the way to disk and back. An
object is rebuilt by `insert`: in the order of its keys it is itself (`rebuild`).
-/

namespace Sonara

/-! ## Objects -/

namespace Json

/-- The fields of an object are in the order of their keys. -/
def Ordered (fields : List (Text × Json)) : Prop := fields.Pairwise fun a b => a.1 < b.1

variable {fields map : List (Text × Json)} {key : Text} {v : Json}

/-- A field after an insert is the new one or was there. -/
theorem mem_insert {f : Text × Json} (h : f ∈ insert key v fields) : f = (key, v) ∨ f ∈ fields := by
  induction fields with
  | nil => exact .inl (List.mem_singleton.mp h)
  | cons g rest ih =>
    unfold insert at h
    split at h
    · rcases List.mem_cons.mp h with rfl | h
      · exact .inl rfl
      · exact .inr (List.mem_cons_of_mem _ h)
    · split at h
      · exact List.mem_cons.mp h
      · rcases List.mem_cons.mp h with rfl | h
        · exact .inr List.mem_cons_self
        · exact (ih h).imp_right (List.mem_cons_of_mem _)

/-- An insert keeps the fields in order. -/
theorem Ordered.insert (h : Ordered fields) : Ordered (insert key v fields) := by
  induction fields with
  | nil => exact List.pairwise_singleton _ _
  | cons f rest ih =>
    obtain ⟨hfirst, hrest⟩ := List.pairwise_cons.mp h
    unfold Json.insert
    split
    next heq => exact List.pairwise_cons.mpr ⟨fun g hg => heq ▸ hfirst g hg, hrest⟩
    next hne =>
      split
      next hlt =>
        exact List.pairwise_cons.mpr
          ⟨List.forall_mem_cons.mpr ⟨hlt, fun g hg => hlt.trans (hfirst g hg)⟩, h⟩
      next hnot =>
        refine List.pairwise_cons.mpr ⟨fun g hg => ?_, ih hrest⟩
        rcases mem_insert hg with rfl | hg
        · exact lt_of_le_of_ne (not_lt.mp hnot) hne
        · exact hfirst g hg

theorem Ordered.remove (h : Ordered fields) : Ordered (remove key fields) := h.filter _

/-- A key behind all others goes to the end. -/
theorem insert_last (h : ∀ f ∈ fields, f.1 < key) : insert key v fields = fields ++ [(key, v)] := by
  induction fields with
  | nil => rfl
  | cons f rest ih =>
    have hf : f.1 < key := h f List.mem_cons_self
    unfold insert
    rw [if_neg hf.ne, if_neg hf.asymm, ih fun g hg => h g (List.mem_cons_of_mem _ hg)]
    rfl

theorem field_of_mem (h : Ordered fields) (hmem : (key, v) ∈ fields) :
    field key fields = some v := by
  induction fields with
  | nil => cases hmem
  | cons f rest ih =>
    obtain ⟨hfirst, hrest⟩ := List.pairwise_cons.mp h
    unfold field
    rcases List.mem_cons.mp hmem with rfl | hmem
    · rw [List.find?_cons, beq_self_eq_true]
      rfl
    · rw [List.find?_cons, beq_false_of_ne (hfirst _ hmem).ne]
      exact ih hrest hmem

theorem mem_of_field (h : field key fields = some v) : (key, v) ∈ fields := by
  obtain ⟨f, hf, rfl⟩ := Option.map_eq_some_iff.mp h
  have hkey := List.find?_some hf
  obtain rfl : f.1 = key := eq_of_beq hkey
  exact List.mem_of_find?_eq_some hf

end Json

namespace Text

/-- What begins a trimmed text needs no trimming at its start. -/
theorem trimStart_prefix {a t : Text} (h : a <+: trimStart t) : trimStart a = a := by
  cases a with
  | nil => rfl
  | cons c cs =>
    obtain ⟨rest, hrest⟩ := h
    have hhead := List.head?_dropWhile_not isWhitespace t
    rw [show t.dropWhile isWhitespace = c :: cs ++ rest from hrest.symm] at hhead
    exact List.dropWhile_cons_of_neg (by simpa using hhead)

theorem trim_trim (t : Text) : trim (trim t) = trim t := by
  have hstart : trimStart (trim t) = trim t :=
    trimStart_prefix (List.rdropWhile_prefix isWhitespace (trimStart t))
  show trimEnd (trimStart (trim t)) = trim t
  rw [hstart]
  exact List.rdropWhile_idempotent _ _

end Text

namespace Settings

open Json

/-! ## The parts of a value -/

variable {key : Text} {v c : Json} {t : Text} {n : Nat}

theorem nonBlank_idem (h : nonBlank v = some t) : nonBlank (.string t) = some t := by
  obtain ⟨hsome, hne⟩ := Option.filter_eq_some_iff.mp h
  obtain ⟨s, -, rfl⟩ := Option.map_eq_some_iff.mp hsome
  refine Option.filter_eq_some_iff.mpr ⟨?_, hne⟩
  exact congrArg some (Text.trim_trim s)

theorem asU64_num (h : n < 2 ^ 64) : asU64 (num n) = some n := by
  have hlt : (n : Int) < 2 ^ 64 := by omega
  simp only [num, asU64]
  rw [if_pos ⟨Int.natCast_nonneg n, hlt⟩]
  rfl

theorem whole_of_u64 (h : asU64 v = some n) : whole v = some n := by
  unfold whole
  rw [h]

theorem whole_num (h : n < 2 ^ 64) : whole (num n) = some n := whole_of_u64 (asU64_num h)

theorem oneOf_idem {options : List String} (h : oneOf options v = some t) :
    oneOf options (.string t) = some t :=
  Option.filter_eq_some_iff.mpr ⟨rfl, (Option.filter_eq_some_iff.mp h).2⟩

theorem okOr_ok {α : Type} {why : String} {x : Option α} {a : α} :
    okOr why x = .ok a ↔ x = some a := by
  cases x with
  | none => exact ⟨nofun, nofun⟩
  | some b =>
    exact ⟨fun h => congrArg some (Except.ok.inj h),
      fun h => congrArg Except.ok (Option.some.inj h)⟩

theorem whole_filter {p : Nat → Prop} [DecidablePred p] (hp : ∀ n, p n → n < 2 ^ 64)
    (h : (((whole v).filter fun n => p n).map num) = some c) :
    (((whole c).filter fun n => p n).map num) = some c := by
  obtain ⟨n, hn, rfl⟩ := Option.map_eq_some_iff.mp h
  have hpn : p n := of_decide_eq_true (Option.filter_eq_some_iff.mp hn).2
  rw [whole_num (hp n hpn)]
  exact Option.map_eq_some_iff.mpr ⟨n, Option.filter_eq_some_iff.mpr ⟨rfl, decide_eq_true hpn⟩, rfl⟩

theorem bool_idem (h : (asBool v).map Json.bool = some c) : (asBool c).map Json.bool = some c := by
  obtain ⟨b, -, rfl⟩ := Option.map_eq_some_iff.mp h
  rfl

theorem text_idem (h : (nonBlank v).map Json.string = some c) :
    (nonBlank c).map Json.string = some c := by
  obtain ⟨t, ht, rfl⟩ := Option.map_eq_some_iff.mp h
  exact Option.map_eq_some_iff.mpr ⟨t, nonBlank_idem ht, rfl⟩

theorem choice_idem {options : List String} (h : (oneOf options v).map Json.string = some c) :
    (oneOf options c).map Json.string = some c := by
  obtain ⟨t, ht, rfl⟩ := Option.map_eq_some_iff.mp h
  exact Option.map_eq_some_iff.mpr ⟨t, oneOf_idem ht, rfl⟩

/-! ## Rebuilding an object -/

theorem extend_ordered {map fields : List (Text × Json)} (h : Ordered map) :
    Ordered (extend map fields) := by
  induction fields generalizing map with
  | nil => exact h
  | cons f rest ih => exact ih h.insert

/-- Fields behind all others are put at the end, one after another. -/
theorem extend_behind {map fields : List (Text × Json)} (h : Ordered fields)
    (hbehind : ∀ f ∈ map, ∀ g ∈ fields, f.1 < g.1) : extend map fields = map ++ fields := by
  induction fields generalizing map with
  | nil => exact (List.append_nil _).symm
  | cons g rest ih =>
    obtain ⟨hfirst, hrest⟩ := List.pairwise_cons.mp h
    show extend (insert g.1 g.2 map) rest = _
    rw [insert_last fun f hf => hbehind f hf g List.mem_cons_self, ih hrest, List.append_assoc]
    · rfl
    · intro f hf x hx
      rcases List.mem_append.mp hf with hf | hf
      · exact hbehind f hf x (List.mem_cons_of_mem _ hx)
      · obtain rfl := List.mem_singleton.mp hf
        exact hfirst x hx

/-- **An object is rebuilt as it was.** -/
theorem rebuild {fields : List (Text × Json)} (h : Ordered fields) : extend [] fields = fields :=
  extend_behind h fun _ hf => absurd hf List.not_mem_nil

/-! ## The prompts -/

/-- A prompt as it is stored. -/
def PromptStored (f : Text × Json) : Prop :=
  STYLES.any (·.toList == f.1) = true ∧ ∃ t, f.2 = .string t ∧ nonBlank f.2 = some t

/-- Prompts that pass are stored in order. -/
theorem promptsFrom_stored {fields out prompts : List (Text × Json)}
    (h : promptsFrom fields out = .ok prompts)
    (hout : Ordered out ∧ ∀ f ∈ out, PromptStored f) :
    Ordered prompts ∧ ∀ f ∈ prompts, PromptStored f := by
  induction fields generalizing out with
  | nil =>
    obtain rfl := Except.ok.inj h
    exact hout
  | cons f rest ih =>
    obtain ⟨style, text⟩ := f
    unfold promptsFrom at h
    split at h
    next hstyle =>
      split at h
      next t ht =>
        refine ih h ⟨hout.1.insert, fun f hf => ?_⟩
        rcases mem_insert hf with rfl | hf
        · exact ⟨hstyle, t, rfl, nonBlank_idem ht⟩
        · exact hout.2 f hf
      next => exact ih h hout
    next => cases h

theorem promptsFrom_idem {fields out : List (Text × Json)} (h : ∀ f ∈ fields, PromptStored f) :
    promptsFrom fields out = .ok (extend out fields) := by
  induction fields generalizing out with
  | nil => rfl
  | cons f rest ih =>
    obtain ⟨style, text⟩ := f
    obtain ⟨hstyle, t, rfl, ht⟩ := h _ List.mem_cons_self
    unfold promptsFrom
    rw [if_pos hstyle]
    dsimp only at ht ⊢
    rw [ht]
    exact ih fun f hf => h f (List.mem_cons_of_mem _ hf)

theorem validatePrompts_idem {prompts : List (Text × Json)} (h : validatePrompts v = .ok prompts) :
    validatePrompts (.object prompts) = .ok prompts := by
  obtain ⟨o, -, h⟩ := Lib.bind_ok h
  obtain ⟨hordered, hstored⟩ := promptsFrom_stored h ⟨List.Pairwise.nil, by simp⟩
  show promptsFrom prompts [] = _
  rw [promptsFrom_idem hstored, rebuild hordered]

/-! ## The fields of `summaries` -/

theorem okOr_some {why : String} {x : Option Json} (h : some <$> okOr why x = .ok (some c)) :
    x = some c := by
  cases x with
  | none => cases h
  | some b => exact Option.some.inj (Except.ok.inj h) ▸ rfl

/-- A summary field that passed passes as it is. -/
theorem summariesField_idem {field : Text} (h : summariesField field v = .ok (some c)) :
    summariesField field c = .ok (some c) := by
  have hkeep {why : String} {x : Option Json} (hx : x = some c) : (some <$> okOr why x) = .ok
      (some c) := by
    rw [hx]
    rfl
  unfold summariesField at h ⊢
  by_cases henabled : field = "enabled".toList
  · rw [if_pos henabled] at h ⊢
    exact hkeep (bool_idem (okOr_some h))
  rw [if_neg henabled] at h ⊢
  by_cases hcommand : field = "command".toList
  · rw [if_pos hcommand] at h ⊢
    exact hkeep (choice_idem (okOr_some h))
  rw [if_neg hcommand] at h ⊢
  by_cases hmodel : field = "model".toList
  · rw [if_pos hmodel] at h ⊢
    exact hkeep (text_idem (okOr_some h))
  rw [if_neg hmodel] at h ⊢
  by_cases htimeout : field = "timeout".toList
  · rw [if_pos htimeout] at h ⊢
    exact hkeep (whole_filter (fun n hn => by omega) (okOr_some h))
  rw [if_neg htimeout] at h ⊢
  by_cases hsettle : field = "settle_ms".toList
  · rw [if_pos hsettle] at h ⊢
    exact hkeep (whole_filter (fun n hn => by omega) (okOr_some h))
  rw [if_neg hsettle] at h ⊢
  by_cases hstyle : field = "style".toList
  · rw [if_pos hstyle] at h ⊢
    exact hkeep (choice_idem (okOr_some h))
  rw [if_neg hstyle] at h ⊢
  by_cases hprompts : field = "prompts".toList
  · rw [if_pos hprompts] at h ⊢
    obtain ⟨prompts, hvalid, heq⟩ := Lib.bind_ok h
    obtain rfl := Option.some.inj (Except.ok.inj heq)
    rw [validatePrompts_idem hvalid]
    rfl
  · rw [if_neg hprompts] at h
    cases h

/-- A field of `summaries` as it is stored. -/
def FieldStored (f : Text × Json) : Prop := summariesField f.1 f.2 = .ok (some f.2)

/-- Summary fields that pass are stored in order. -/
theorem summariesFrom_stored {fields out clean : List (Text × Json)}
    (h : summariesFrom fields out = .ok clean)
    (hout : Ordered out ∧ ∀ f ∈ out, FieldStored f) :
    Ordered clean ∧ ∀ f ∈ clean, FieldStored f := by
  induction fields generalizing out with
  | nil =>
    obtain rfl := Except.ok.inj h
    exact hout
  | cons f rest ih =>
    obtain ⟨field, x⟩ := f
    obtain ⟨c, hc, h⟩ := Lib.bind_ok h
    cases c with
    | none => exact ih h hout
    | some c =>
      refine ih h ⟨hout.1.insert, fun f hf => ?_⟩
      rcases mem_insert hf with rfl | hf
      · exact summariesField_idem hc
      · exact hout.2 f hf

theorem summariesFrom_idem {fields out : List (Text × Json)} (h : ∀ f ∈ fields, FieldStored f) :
    summariesFrom fields out = .ok (extend out fields) := by
  induction fields generalizing out with
  | nil => rfl
  | cons f rest ih =>
    obtain ⟨field, x⟩ := f
    have hx : summariesField field x = .ok (some x) := h _ List.mem_cons_self
    unfold summariesFrom
    rw [hx]
    exact ih fun f hf => h f (List.mem_cons_of_mem _ hf)

/-- `summaries` as it is stored. -/
def SummariesStored (fields : List (Text × Json)) : Prop :=
  Ordered fields ∧ ∀ f ∈ fields, FieldStored f

theorem validateSummaries_stored {fields : List (Text × Json)}
    (h : validateSummaries v = .ok fields) :
    SummariesStored fields := by
  obtain ⟨o, -, h⟩ := Lib.bind_ok h
  exact summariesFrom_stored h ⟨List.Pairwise.nil, by simp⟩

theorem SummariesStored.valid {fields : List (Text × Json)} (h : SummariesStored fields) :
    validateSummaries (.object fields) = .ok fields := by
  show summariesFrom fields [] = _
  rw [summariesFrom_idem h.2, rebuild h.1]

/-! ## The pronunciations -/

/-- A word and what to say for it, as they are stored. -/
def WordStored (w : Text × Text) : Prop :=
  nonBlank (.string w.1) = some w.1 ∧ nonBlank (.string w.2) = some w.2 ∧ w.1.length ≤ 60 ∧
    w.2.length ≤ 200

def wordJson (w : Text × Text) : Json :=
  .object [("say".toList, .string w.2), ("word".toList, .string w.1)]

/-- Pronunciations that pass are stored, each word once. -/
theorem pronunciationsFrom_stored {list : List Json} {out words : List (Text × Text)}
    (h : pronunciationsFrom list out = .ok words)
    (hout : (∀ w ∈ out, WordStored w) ∧ (out.map Prod.fst).Nodup) :
    (∀ w ∈ words, WordStored w) ∧ (words.map Prod.fst).Nodup ∧
    words.length ≤ out.length + list.length := by
  induction list generalizing out with
  | nil =>
    obtain rfl := Except.ok.inj h
    exact ⟨hout.1, hout.2, Nat.le_refl _⟩
  | cons e rest ih =>
    obtain ⟨word, hword, h⟩ := Lib.bind_ok h
    obtain ⟨say, hsay, h⟩ := Lib.bind_ok h
    obtain ⟨w, -, hword⟩ := Option.bind_eq_some_iff.mp (okOr_ok.mp hword)
    obtain ⟨s, -, hsay⟩ := Option.bind_eq_some_iff.mp (okOr_ok.mp hsay)
    split at h
    next => cases h
    next hshort =>
    have hlong : word.length ≤ 60 ∧ say.length ≤ 200 := by omega
    have hnew : WordStored (word, say) := ⟨nonBlank_idem hword, nonBlank_idem hsay, hlong⟩
    split at h
    next hthere =>
      -- the entry of the word is replaced
      have hfst : (out.map fun p => if p.1 = word then (word, say) else p).map Prod.fst =
          out.map Prod.fst := by
        rw [List.map_map]
        refine List.map_congr_left fun p _ => ?_
        show (if p.1 = word then (word, say) else p).1 = p.1
        split
        next heq => exact heq.symm
        next => rfl
      have hall : ∀ p ∈ out.map fun p => if p.1 = word then (word, say) else p, WordStored p := by
        intro p hp
        obtain ⟨q, hq, rfl⟩ := List.mem_map.mp hp
        split
        next => exact hnew
        next => exact hout.1 q hq
      obtain ⟨hstored, hnodup, hlength⟩ := ih h ⟨hall, hfst ▸ hout.2⟩
      refine ⟨hstored, hnodup, ?_⟩
      rw [List.length_map] at hlength
      rw [List.length_cons]
      omega
    next hthere =>
      have hfresh : word ∉ out.map Prod.fst := by
        intro hmem
        obtain ⟨p, hp, rfl⟩ := List.mem_map.mp hmem
        exact hthere (List.any_eq_true.mpr ⟨p, hp, beq_self_eq_true _⟩)
      have hall : ∀ p ∈ out ++ [(word, say)], WordStored p := by
        intro p hp
        rcases List.mem_append.mp hp with hp | hp
        · exact hout.1 p hp
        · exact List.mem_singleton.mp hp ▸ hnew
      have hfst : ((out ++ [(word, say)]).map Prod.fst).Nodup := by
        rw [List.map_append, List.nodup_append]
        refine ⟨hout.2, List.nodup_singleton _, fun a ha b hb heq => ?_⟩
        obtain rfl := List.mem_singleton.mp hb
        exact hfresh (heq ▸ ha)
      obtain ⟨hstored, hnodup, hlength⟩ := ih h ⟨hall, hfst⟩
      refine ⟨hstored, hnodup, ?_⟩
      rw [List.length_append, List.length_singleton] at hlength
      rw [List.length_cons]
      omega

/-- Stored pronunciations pass as they are. -/
theorem pronunciationsFrom_idem {words out : List (Text × Text)}
    (hstored : ∀ w ∈ words, WordStored w) (hnodup : ((out ++ words).map Prod.fst).Nodup) :
    pronunciationsFrom (words.map wordJson) out = .ok (out ++ words) := by
  induction words generalizing out with
  | nil => exact congrArg Except.ok (List.append_nil _).symm
  | cons w rest ih =>
    obtain ⟨word, say⟩ := w
    obtain ⟨hword, hsay, hlong, hlonger⟩ := hstored _ List.mem_cons_self
    have hget : (get "word".toList (wordJson (word, say))).bind nonBlank = some word := hword
    have hget' : (get "say".toList (wordJson (word, say))).bind nonBlank = some say := hsay
    have hfresh : ¬out.any (·.1 == word) = true := by
      intro hany
      obtain ⟨p, hp, heq⟩ := List.any_eq_true.mp hany
      rw [List.map_append, List.map_cons] at hnodup
      refine (List.nodup_append.mp hnodup).2.2 p.1
        (List.mem_map.mpr ⟨p, hp, rfl⟩) word List.mem_cons_self ?_
      exact eq_of_beq heq
    have hshort : ¬(word.length > 60 ∨ say.length > 200) := by
      dsimp only at hlong hlonger
      omega
    rw [List.map_cons]
    unfold pronunciationsFrom
    rw [hget, hget']
    show (if word.length > 60 ∨ say.length > 200 then _ else _) = _
    rw [if_neg hshort, if_neg hfresh, ih fun w hw => hstored w (List.mem_cons_of_mem _ hw),
      List.append_assoc]
    · rfl
    · rwa [List.append_assoc]

/-- Pronunciations that passed pass as they are. -/
theorem validatePronunciations_idem (h : validatePronunciations v = .ok c) :
    validatePronunciations c = .ok c := by
  obtain ⟨list, -, h⟩ := Lib.bind_ok h
  split at h
  next => cases h
  next hmany =>
  obtain ⟨words, hwords, heq⟩ := Lib.bind_ok h
  obtain ⟨hstored, hnodup, hlength⟩ := pronunciationsFrom_stored hwords ⟨by simp, List.nodup_nil⟩
  obtain rfl := Except.ok.inj heq
  have hfew : ¬((words.map wordJson).length > PRONUNCIATIONS_MAX) := by
    rw [List.length_map]
    have hzero : ([] : List (Text × Text)).length = 0 := rfl
    omega
  have hagain : pronunciationsFrom (words.map wordJson) [] = .ok words :=
    pronunciationsFrom_idem hstored (by rwa [List.nil_append])
  show validatePronunciations (.array (words.map wordJson)) = .ok (.array (words.map wordJson))
  unfold validatePronunciations
  show (if (words.map wordJson).length > PRONUNCIATIONS_MAX then _ else _) = _
  rw [if_neg hfew, hagain]
  rfl

/-! ## Every kind -/

/-- A choice that was picked is picked again, and is not null. -/
theorem pick_idem {o : List (Text × Json)} (h : pick o = some c) :
    c.asObject.bind pick = some c ∧ c.isNull = false := by
  unfold pick at h
  split at h
  next e x he hx =>
    split at h
    next =>
      obtain rfl := Option.some.inj h
      obtain ⟨_, -, he⟩ := Option.bind_eq_some_iff.mp he
      obtain ⟨_, -, hx⟩ := Option.bind_eq_some_iff.mp hx
      refine ⟨?_, rfl⟩
      have he' : (field "engine".toList [("engine".toList, .string e),
        ("voice".toList, .string x)]).bind nonBlank =
          some e := nonBlank_idem he
      have hx' : (field "voice".toList [("engine".toList, .string e),
        ("voice".toList, .string x)]).bind nonBlank =
          some x := nonBlank_idem hx
      show pick [("engine".toList, .string e), ("voice".toList, .string x)] = _
      unfold pick
      rw [he', hx']
      rfl
    next => cases h
  next => cases h

/-- No option is an old name of another, and the ranges are of `u64`s. -/
def Kind.sound (key : Text) : Kind → Bool
  | .oneOf options => options.all fun o => canonical key o.toList == o.toList
  | .range _ hi => decide (hi < 2 ^ 64)
  | _ => true

theorem schema_sound : SCHEMA.all (fun s => s.kind.sound s.key.toList) = true := by decide +kernel

/-- The result is `v` again. -/
def accepts (v : Json) : Except String Json → Bool
  | .ok c => decide (c = v)
  | .error _ => false

/-- Every default is accepted as it is. -/
theorem schema_defaults : ∀ s ∈ SCHEMA, validate s.key.toList s.default = .ok s.default := by
  have hall : SCHEMA.all (fun s => accepts s.default (validate s.key.toList s.default)) =
    true := by decide +kernel
  intro s hs
  have haccepts := List.all_eq_true.mp hall s hs
  cases h : validate s.key.toList s.default with
  | ok c =>
    rw [h] at haccepts
    exact congrArg Except.ok (of_decide_eq_true haccepts)
  | error why =>
    rw [h] at haccepts
    cases haccepts

/-- A value that passed a sound check passes it as it is. -/
theorem Kind.check_idem {kind : Kind} (hsound : kind.sound key = true)
    (h : kind.check key v = .ok c) :
    kind.check key c = .ok c := by
  cases kind with
  | range lo hi =>
    have hhi : hi < 2 ^ 64 := of_decide_eq_true hsound
    exact okOr_ok.mpr (whole_filter (fun n hn => by omega) (okOr_ok.mp h))
  | oneOf options =>
    obtain ⟨t, ht, rfl⟩ := Option.map_eq_some_iff.mp (okOr_ok.mp h)
    obtain ⟨-, hany⟩ := Option.filter_eq_some_iff.mp ht
    obtain ⟨o, ho, heq⟩ := List.any_eq_true.mp hany
    obtain rfl : o.toList = t := eq_of_beq heq
    have hcanonical : canonical key o.toList = o.toList :=
      eq_of_beq (List.all_eq_true.mp hsound o ho)
    refine okOr_ok.mpr (Option.map_eq_some_iff.mpr
      ⟨o.toList, Option.filter_eq_some_iff.mpr ⟨?_, hany⟩, rfl⟩)
    exact congrArg some hcanonical
  | text => exact okOr_ok.mpr (text_idem (okOr_ok.mp h))
  | textOrNull =>
    simp only [Kind.check] at h ⊢
    split at h
    next =>
      obtain rfl := Except.ok.inj h
      rfl
    next =>
      have hc := text_idem (okOr_ok.mp h)
      obtain ⟨t, -, rfl⟩ := Option.map_eq_some_iff.mp (okOr_ok.mp h)
      exact okOr_ok.mpr hc
  | summaries =>
    obtain ⟨fields, hfields, heq⟩ := Lib.bind_ok (f := fun x => .ok (Json.object x)) h
    obtain rfl := Except.ok.inj heq
    show Json.object <$> validateSummaries (.object fields) = _
    rw [(validateSummaries_stored hfields).valid]
    rfl
  | bool => exact okOr_ok.mpr (bool_idem (okOr_ok.mp h))
  | pronunciations => exact validatePronunciations_idem h
  | voicePick =>
    simp only [Kind.check] at h ⊢
    split at h
    next =>
      obtain rfl := Except.ok.inj h
      rfl
    next =>
      obtain ⟨o, -, hpick⟩ := Option.bind_eq_some_iff.mp (okOr_ok.mp h)
      obtain ⟨hagain, hnull⟩ := pick_idem hpick
      rw [hnull, if_neg (by decide)]
      exact okOr_ok.mpr hagain

/-- **What is stored is accepted as it is.** -/
theorem validate_idem (h : validate key v = .ok c) : validate key c = .ok c := by
  unfold validate at h ⊢
  cases hs : setting key with
  | none =>
    rw [hs] at h
    cases h
  | some s =>
    rw [hs] at h
    have hkey : s.key.toList = key := by
      have hfound := List.find?_some hs
      exact eq_of_beq hfound
    have hsound := List.all_eq_true.mp schema_sound s (List.mem_of_find?_eq_some hs)
    exact Kind.check_idem (hkey ▸ hsound) h

end Settings

end Sonara
