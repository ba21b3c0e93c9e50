import Sonara.Settings.Fields

/-!
# The preferences of the channels

They are kept oldest change first, each change later than the ones before it, so the order survives
a reload: what is loaded from a file that was written are the entries it was written from
(`loadPrefs_saved`). Only white space at the end of a label that was cut short is lost.
-/

namespace Sonara.Settings

open Json

variable {s : Store} {key k : Text} {v : Json}

/-- A label without the white space at its end. -/
def Entry.trimmed (e : Entry) : Entry :=
  { e with prefs := { e.prefs with label := e.prefs.label.map Text.trim } }

/-- The texts of preferences as the store holds them. -/
structure Prefs.Clean (p : Prefs) : Prop where
  label : ∀ l, p.label = some l → Text.trim l ≠ [] ∧ l.length ≤ LABEL_MAX
  voice : ∀ t, p.voice = some t → nonBlank (.string t) = some t

/-- An entry as the store holds it. -/
structure Entry.Stored (e : Entry) : Prop where
  used : e.prefs.isEmpty = false
  clean : e.prefs.Clean
  time : e.time < 2 ^ 64

/-- Oldest change first; entries of one time are in the order of their ids. -/
def Before (a b : Entry) : Prop := a.time < b.time ∨ a.time = b.time ∧ a.id < b.id

theorem get_toJson (p : Prefs) (x : Json) :
    get "label".toList (.object (insert "changed".toList x p.toJson)) = p.label.map .string ∧
      get "name".toList (.object (insert "changed".toList x p.toJson)) = none ∧
      get "voice".toList (.object (insert "changed".toList x p.toJson)) = p.voice.map .string ∧
      get "muted".toList (.object (insert "changed".toList x p.toJson)) = if p.muted then some
      (.bool true) else none := by
  have hget (k : Text) (hk : k ≠ "changed".toList) :
      get k (.object (insert "changed".toList x p.toJson)) = field k p.toJson :=
        field_insert_of_ne hk _ _
  rw [hget _ (by decide), hget _ (by decide), hget _ (by decide), hget _ (by decide)]
  obtain ⟨label, voice, muted⟩ := p
  unfold Prefs.toJson
  cases label <;> cases voice <;> cases muted <;> exact ⟨rfl, rfl, rfl, rfl⟩

theorem length_trim (t : Text) : (Text.trim t).length ≤ t.length :=
  (List.rdropWhile_prefix Text.isWhitespace (Text.trimStart t)).length_le.trans
    (List.dropWhile_suffix Text.isWhitespace).length_le

/-- **An entry is read as it was written**, its label trimmed. -/
theorem read_json {e : Entry} (h : e.Stored) (hid : e.id ≠ []) :
    Entry.read e.json = some e.trimmed := by
  obtain ⟨hlabel, hname, hvoice, hmuted⟩ := get_toJson e.prefs (num e.time)
  have hprefs : Prefs.fromJson e.json.2 = e.trimmed.prefs := by
    unfold Prefs.fromJson Entry.json Entry.trimmed
    dsimp only
    rw [hlabel, hname, hvoice, hmuted]
    have hl : (((e.prefs.label.map Json.string).or none).bind nonBlank).map clip =
        e.prefs.label.map Text.trim := by
      cases he : e.prefs.label with
      | none => rfl
      | some l =>
        obtain ⟨hne, hlength⟩ := h.clean.label l he
        have htrim : nonBlank (.string l) = some (Text.trim l) :=
          Option.filter_eq_some_iff.mpr ⟨rfl, decide_eq_true hne⟩
        have hshort : (Text.trim l).length ≤ LABEL_MAX := (length_trim l).trans hlength
        show (nonBlank (.string l)).map clip = some (Text.trim l)
        rw [htrim]
        exact congrArg some (List.take_of_length_le hshort)
    have hv : (e.prefs.voice.map Json.string).bind nonBlank = e.prefs.voice := by
      cases he : e.prefs.voice with
      | none => rfl
      | some t => exact h.clean.voice t he
    have hm : ((if e.prefs.muted then some (Json.bool true) else none).bind asBool).getD false =
        e.prefs.muted := by
      cases e.prefs.muted <;> rfl
    rw [hl, hv, hm]
  have hempty : e.trimmed.prefs.isEmpty = false := by
    have hused := h.used
    unfold Prefs.isEmpty at hused ⊢
    unfold Entry.trimmed
    rwa [Option.isNone_map]
  have htime : ((get "changed".toList e.json.2).bind asU64).getD 0 = e.time := by
    have hget : get "changed".toList e.json.2 = some (num e.time) := field_insert_self _ _ _
    rw [hget, Option.bind_some, asU64_num h.time, Option.getD_some]
  unfold Entry.read
  rw [hprefs, htime]
  dsimp only
  rw [hempty, if_neg (by simp [Entry.json, hid])]
  rfl

/-! ## The order of the preferences -/

theorem Before.time_le {a b : Entry} (h : Before a b) : a.time ≤ b.time := by
  rcases h with hlt | ⟨heq, -⟩
  · exact hlt.le
  · exact heq.le

theorem Before.asymm {a b : Entry} (h : Before a b) (h' : Before b a) : False := by
  rcases h with hlt | ⟨heq, hid⟩
  · exact absurd h'.time_le (Nat.not_le.mpr hlt)
  · rcases h' with hlt' | ⟨-, hid'⟩
    · exact absurd heq.le (Nat.not_le.mpr hlt')
    · exact hid.asymm hid'

/-- Inserting by time keeps the order, ties by id. -/
theorem orderedInsert_before {e : Entry} {l : List Entry} (hl : l.Pairwise Before)
    (he : ∀ b ∈ l, e.id < b.id) :
    (l.orderedInsert (fun a b => a.time ≤ b.time) e).Pairwise Before := by
  have hfirst {b : Entry} (hb : b ∈ l) (htime : e.time ≤ b.time) : Before e b := by
    rcases Nat.lt_or_eq_of_le htime with hlt | heq
    · exact .inl hlt
    · exact .inr ⟨heq, he b hb⟩
  induction l with
  | nil => exact List.pairwise_singleton _ _
  | cons b rest ih =>
    obtain ⟨hb, hrest⟩ := List.pairwise_cons.mp hl
    rw [List.orderedInsert_cons]
    split
    next htime =>
      refine List.pairwise_cons.mpr ⟨fun c hc => ?_, hl⟩
      rcases List.mem_cons.mp hc with rfl | hc
      · exact hfirst List.mem_cons_self htime
      · exact hfirst (List.mem_cons_of_mem _ hc) (htime.trans (hb c hc).time_le)
    next htime =>
      have hrest' := ih hrest (fun c hc => he c (List.mem_cons_of_mem _ hc))
        fun hc => hfirst (List.mem_cons_of_mem _ hc)
      refine List.pairwise_cons.mpr ⟨fun c hc => ?_, hrest'⟩
      rcases (List.mem_orderedInsert _).mp hc with rfl | hc
      · exact .inl (Nat.lt_of_not_le htime)
      · exact hb c hc

/-- **The sort is stable**: what is in the order of the ids comes in the order of time, then of the
ids. -/
theorem insertionSort_before {l : List Entry} (h : l.Pairwise fun a b => a.id < b.id) :
    (l.insertionSort fun a b => a.time ≤ b.time).Pairwise Before := by
  induction l with
  | nil => exact List.Pairwise.nil
  | cons e rest ih =>
    obtain ⟨he, hrest⟩ := List.pairwise_cons.mp h
    rw [List.insertionSort_cons]
    exact orderedInsert_before (ih hrest) fun b hb => he b ((List.mem_insertionSort _).mp hb)

/-- Sorting puts any arrangement of ordered entries in order again. -/
theorem sort_eq {l entries : List Entry} (h : l.Pairwise fun a b => a.id < b.id)
    (hentries : entries.Pairwise Before)
    (hperm : l.Perm entries) : (l.insertionSort fun a b => a.time ≤ b.time) = entries :=
  ((List.perm_insertionSort _ l).trans hperm).eq_of_pairwise
    (fun _ _ _ _ hab hba => (hab.asymm hba).elim)
    (insertionSort_before h) hentries

/-! ## The file of the preferences -/

theorem insert_perm {fields : List (Text × Json)} (h : key ∉ fields.map Prod.fst) :
    (insert key v fields).Perm ((key, v) :: fields) := by
  induction fields with
  | nil => exact List.Perm.refl _
  | cons f rest ih =>
    rw [List.map_cons, List.mem_cons, not_or] at h
    unfold Json.insert
    rw [if_neg (Ne.symm h.1)]
    split
    next => exact List.Perm.refl _
    next => exact ((ih h.2).cons f).trans (List.Perm.swap _ _ _)

/-- Extending adds the fields. -/
theorem extend_perm {fields map : List (Text × Json)} (h : ((map ++ fields).map Prod.fst).Nodup) :
    (extend map fields).Perm (map ++ fields) := by
  induction fields generalizing map with
  | nil => rw [List.append_nil]; exact List.Perm.refl _
  | cons f rest ih =>
    have hkey : f.1 ∉ map.map Prod.fst := by
      rw [List.map_append, List.map_cons] at h
      exact fun hmem => (List.nodup_append.mp h).2.2 f.1 hmem f.1 List.mem_cons_self rfl
    have hfirst : (Json.insert f.1 f.2 map).Perm (map ++ [f]) :=
      (insert_perm hkey).trans (List.perm_append_singleton f map).symm
    have hall : (Json.insert f.1 f.2 map ++ rest).Perm (map ++ f :: rest) := by
      have hright := hfirst.append_right rest
      rwa [List.append_assoc] at hright
    exact (ih ((hall.map Prod.fst).nodup_iff.mpr h)).trans hall

theorem read_id {f : Text × Json} {e : Entry} (h : Entry.read f = some e) : e.id = f.1 := by
  unfold Entry.read at h
  dsimp only at h
  split at h
  next => cases h
  next => exact Option.some.inj h ▸ rfl

theorem read_ordered {raw : List (Text × Json)} (h : Json.Ordered raw) :
    (raw.filterMap Entry.read).Pairwise fun a b => a.id < b.id := by
  refine List.Pairwise.filterMap _ (fun a b hab a' ha b' hb => ?_) h
  rw [read_id ha, read_id hb]
  exact hab

theorem newest_few {entries : List Entry} (h : entries.length ≤ PREFS_CAP) :
    newest entries = entries := by
  unfold newest
  rw [Nat.sub_eq_zero_of_le h]
  rfl

/-- The entries in a file that was written. -/
theorem read_written {entries : List Entry} (hstored : ∀ e ∈ entries, e.Stored) :
    (entries.map Entry.json).filterMap Entry.read =
    (entries.filter (·.id ≠ [])).map Entry.trimmed := by
  induction entries with
  | nil => rfl
  | cons e rest ih =>
    have hrest := ih fun e he => hstored e (List.mem_cons_of_mem _ he)
    rw [List.map_cons, List.filter_cons]
    by_cases hid : e.id = []
    · have hread : Entry.read e.json = none := if_pos (.inl hid)
      rw [List.filterMap_cons_none hread, hrest, if_neg (by simp [hid])]
    · rw [List.filterMap_cons_some (read_json (hstored e List.mem_cons_self) hid), hrest,
        if_pos (by simp [hid]),
        List.map_cons]

/-- **What is loaded from a file that was written** are the entries, their labels trimmed. -/
theorem loadPrefs_saved {entries : List Entry} (hordered : entries.Pairwise Before)
    (hids : (entries.map (·.id)).Nodup)
    (hstored : ∀ e ∈ entries, e.Stored) (hcap : entries.length ≤ PREFS_CAP) :
    loadPrefs (extend [] (entries.map Entry.json)) =
    (entries.filter (·.id ≠ [])).map Entry.trimmed := by
  have hnodup : (([] ++ entries.map Entry.json).map Prod.fst).Nodup := by
    rw [List.nil_append, List.map_map]
    exact hids
  have hperm : ((extend [] (entries.map Entry.json)).filterMap Entry.read).Perm
      ((entries.filter (·.id ≠ [])).map Entry.trimmed) := by
    rw [← read_written hstored]
    exact (extend_perm hnodup).filterMap _
  have hsorted : ((entries.filter (·.id ≠ [])).map Entry.trimmed).Pairwise Before :=
    List.Pairwise.map _ (fun _ _ h => h) (hordered.filter _)
  unfold loadPrefs
  rw [sort_eq (read_ordered (extend_ordered List.Pairwise.nil)) hsorted hperm, newest_few]
  rw [List.length_map]
  exact (List.length_filter_le _ _).trans hcap

theorem trimmed_trimmed (e : Entry) : e.trimmed.trimmed = e.trimmed := by
  unfold Entry.trimmed
  dsimp only
  rw [Option.map_map]
  have hfun : Text.trim ∘ Text.trim = Text.trim := funext Text.trim_trim
  rw [hfun]

theorem load_prefs (home : Home) : (load home).prefs = loadPrefs (readObject home.prefs) := by
  unfold load
  dsimp only

theorem readObject_object (fields : List (Text × Json)) :
    readObject (some (.object fields)) = fields := rfl

/-- Entries as the store holds them. -/
structure Listed (entries : List Entry) : Prop where
  ordered : entries.Pairwise Before
  ids : (entries.map (·.id)).Nodup
  stored : ∀ e ∈ entries, e.Stored

theorem Listed.sublist {entries l : List Entry} (h : Listed entries) (hsub : l.Sublist entries) :
    Listed l :=
  ⟨h.ordered.sublist hsub, h.ids.sublist (hsub.map _), fun e he => h.stored e (hsub.subset he)⟩

/-- One more, changed after all others. -/
theorem Listed.push {entries : List Entry} {e : Entry} (h : Listed entries)
    (hlater : ∀ b ∈ entries, Before b e)
    (hfresh : e.id ∉ entries.map (·.id)) (he : e.Stored) : Listed (entries ++ [e]) := by
  refine ⟨List.pairwise_append.mpr ⟨h.ordered, List.pairwise_singleton _ _, fun b hb c hc => ?_⟩,
    ?_, fun b hb => ?_⟩
  · rw [List.mem_singleton.mp hc]
    exact hlater b hb
  · rw [List.map_append]
    refine List.nodup_append.mpr ⟨h.ids, List.nodup_singleton _, fun x hx y hy heq => ?_⟩
    obtain rfl : y = e.id := List.mem_singleton.mp hy
    exact hfresh (heq ▸ hx)
  · rcases List.mem_append.mp hb with hb | hb
    · exact h.stored b hb
    · exact List.mem_singleton.mp hb ▸ he

/-- The preferences of a store and `session_prefs.json`. -/
structure PrefsInv (s : Store) : Prop where
  listed : Listed s.prefs
  cap : s.prefs.length ≤ PREFS_CAP
  file : Json.Ordered (readObject s.home.prefs)
  reloads : (load s.home).prefs.map Entry.trimmed = (s.prefs.filter (·.id ≠ [])).map Entry.trimmed

theorem Listed.save {entries : List Entry} (h : Listed entries)
    (hcap : entries.length ≤ PREFS_CAP) :
    PrefsInv (Store.savePrefs { s with prefs := entries }) := by
  refine ⟨h, hcap, extend_ordered List.Pairwise.nil, ?_⟩
  rw [load_prefs, Store.savePrefs, readObject_object, loadPrefs_saved h.ordered h.ids h.stored hcap,
    List.map_map]
  exact List.map_congr_left fun e _ => trimmed_trimmed e

/-! ## A change -/

theorem text_stored {x : Option Text} {t : Text} (h : Prefs.text x = some t) :
    Text.trim t = t ∧ t ≠ [] := by
  obtain ⟨hsome, hne⟩ := Option.filter_eq_some_iff.mp h
  obtain ⟨raw, -, rfl⟩ := Option.map_eq_some_iff.mp hsome
  exact ⟨Text.trim_trim raw, of_decide_eq_true hne⟩

/-- What is left of a label that is cut short is not blank. -/
theorem clip_stored {t : Text} (htrim : Text.trim t = t) (hne : t ≠ []) :
    Text.trim (clip t) ≠ [] ∧ (clip t).length ≤ LABEL_MAX := by
  refine ⟨fun hblank => ?_, List.length_take_le _ _⟩
  cases t with
  | nil => exact hne rfl
  | cons c cs =>
    have hstart : Text.trimStart (c :: cs) = c :: cs := by
      rw [← htrim]
      exact Text.trimStart_prefix (List.rdropWhile_prefix Text.isWhitespace
        (Text.trimStart (c :: cs)))
    have hc : Text.isWhitespace c = false := by
      have hhead := List.head?_dropWhile_not Text.isWhitespace (c :: cs)
      rw [show (c :: cs).dropWhile Text.isWhitespace = c :: cs from hstart] at hhead
      simpa using hhead
    have hkeep : Text.trimStart (clip (c :: cs)) = clip (c :: cs) :=
      Text.trimStart_prefix (t := c :: cs) (hstart.symm ▸ List.take_prefix _ _)
    unfold Text.trim at hblank
    rw [hkeep] at hblank
    have hall := List.rdropWhile_eq_nil_iff.mp hblank c List.mem_cons_self
    rw [hc] at hall
    cases hall

/-- An update leaves preferences that are clean. -/
theorem Prefs.Clean.update {p : Prefs} (h : p.Clean) (u : PrefsUpdate) : (p.update u).Clean := by
  refine ⟨fun l hl => ?_, fun t ht => ?_⟩
  · unfold Prefs.update at hl
    dsimp only at hl
    split at hl
    next =>
      obtain ⟨t, ht, rfl⟩ := Option.map_eq_some_iff.mp hl
      obtain ⟨htrim, hne⟩ := text_stored ht
      exact clip_stored htrim hne
    next => exact h.label l hl
  · unfold Prefs.update at ht
    dsimp only at ht
    split at ht
    next =>
      obtain ⟨htrim, hne⟩ := text_stored ht
      refine Option.filter_eq_some_iff.mpr ⟨congrArg some htrim, decide_eq_true hne⟩
    next => exact h.voice t ht

theorem fromJson_clean (v : Json) : (Prefs.fromJson v).Clean := by
  refine ⟨fun l hl => ?_, fun t ht => ?_⟩
  · obtain ⟨t, ht, rfl⟩ := Option.map_eq_some_iff.mp hl
    obtain ⟨x, -, hx⟩ := Option.bind_eq_some_iff.mp ht
    obtain ⟨hsome, hne⟩ := Option.filter_eq_some_iff.mp (nonBlank_idem hx)
    exact clip_stored (Option.some.inj hsome) (of_decide_eq_true hne)
  · obtain ⟨x, -, hx⟩ := Option.bind_eq_some_iff.mp ht
    exact nonBlank_idem hx

theorem asU64_lt {v : Json} {n : Nat} (h : asU64 v = some n) : n < 2 ^ 64 := by
  unfold asU64 at h
  split at h
  next i =>
    split at h
    next hi =>
      obtain rfl := Option.some.inj h
      omega
    next => cases h
  next => cases h

/-- An entry that is read is stored as it is written, and has an id. -/
theorem read_stored {f : Text × Json} {e : Entry} (h : Entry.read f = some e) :
    e.Stored ∧ e.id ≠ [] := by
  have hid := read_id h
  unfold Entry.read at h
  dsimp only at h
  split at h
  next => cases h
  next hused =>
    rw [not_or] at hused
    obtain rfl := Option.some.inj h
    refine ⟨⟨Bool.eq_false_iff.mpr hused.2, fromJson_clean f.2, ?_⟩, hused.1⟩
    dsimp only
    cases hn : (get "changed".toList f.2).bind asU64 with
    | none =>
      rw [Option.getD_none]
      omega
    | some n =>
      obtain ⟨x, -, hx⟩ := Option.bind_eq_some_iff.mp hn
      exact asU64_lt hx

/-! ## The store keeps them -/

theorem newest_sublist (entries : List Entry) : (newest entries).Sublist entries :=
  List.drop_sublist _ _

theorem newest_length (entries : List Entry) : (newest entries).length ≤ PREFS_CAP := by
  unfold newest
  rw [List.length_drop]
  omega

/-- Loaded preferences keep the invariant. -/
theorem PrefsInv.load {home : Home} (h : Json.Ordered (readObject home.prefs)) :
    PrefsInv (load home) := by
  have hread {e : Entry} (he : e ∈ (Settings.load home).prefs) : e.Stored ∧ e.id ≠ [] := by
    rw [load_prefs] at he
    have hmem := (List.mem_insertionSort _).mp ((newest_sublist _).subset he)
    obtain ⟨f, -, hf⟩ := List.mem_filterMap.mp hmem
    exact read_stored hf
  refine ⟨⟨?_, ?_, fun e he => (hread he).1⟩, ?_, h, ?_⟩
  · rw [load_prefs]
    exact (insertionSort_before (read_ordered h)).sublist (newest_sublist _)
  · rw [load_prefs]
    have hraw : (((readObject home.prefs).filterMap Entry.read).map (·.id)).Nodup :=
      List.Pairwise.map _ (fun _ _ hlt heq => absurd (heq ▸ hlt) (lt_irrefl _)) (read_ordered h)
    have hperm := ((List.perm_insertionSort (fun a b : Entry => a.time ≤ b.time) _).map
      (·.id)).nodup_iff.mpr hraw
    exact hperm.sublist ((newest_sublist _).map _)
  · rw [load_prefs]
    exact newest_length _
  · have hall : (Settings.load home).prefs.filter (·.id ≠ []) = (Settings.load home).prefs :=
      List.filter_eq_self.mpr fun e he => decide_eq_true (hread he).2
    rw [hall]
    rfl

/-- Only the preferences and their file matter. -/
theorem PrefsInv.frame {s t : Store} (h : PrefsInv s) (hprefs : t.prefs = s.prefs)
    (hfile : t.home.prefs = s.home.prefs) :
    PrefsInv t := by
  refine ⟨hprefs ▸ h.listed, hprefs ▸ h.cap, hfile ▸ h.file, ?_⟩
  have hreloads := h.reloads
  rw [load_prefs] at hreloads ⊢
  rw [hprefs, hfile]
  exact hreloads

theorem forgetPrefs_prefs (h : PrefsInv s) (channel : Text) : PrefsInv (s.forgetPrefs channel) := by
  unfold Store.forgetPrefs
  dsimp only
  split
  next =>
    exact (h.listed.sublist List.filter_sublist).save ((List.length_filter_le _ _).trans h.cap)
  next => exact h

/-- The clock is a `u64`, and so is the time after the latest change. -/
def Timely (s : Store) (now : Nat) : Prop := now < 2 ^ 64 ∧ ∀ e ∈ s.prefs, e.time + 1 < 2 ^ 64

/-- A change is the latest one. -/
theorem appended_before {others : List Entry} (channel : Text) (p : Prefs) (now : Nat)
    (h : others.Pairwise Before) (htime : ∀ e ∈ others, e.time + 1 < 2 ^ 64) : ∀ e ∈ others,
    Before e { id := channel, prefs := p,
               time := max now (((others.getLast?.map (·.time)).getD 0 + 1) % 2 ^ 64) } := by
  intro e he
  refine .inl ?_
  dsimp only
  cases hlast : others.getLast? with
  | none =>
    rw [List.getLast?_eq_none_iff.mp hlast] at he
    cases he
  | some last =>
    have hmem := List.mem_of_getLast? hlast
    have hle : e.time ≤ last.time := by
      obtain ⟨front, rfl⟩ := List.getLast?_eq_some_iff.mp hlast
      rcases List.mem_append.mp he with he | he
      · exact ((List.pairwise_append.mp h).2.2 e he last List.mem_cons_self).time_le
      · exact (List.mem_singleton.mp he) ▸ le_rfl
    have hmod : (last.time + 1) % 2 ^ 64 = last.time + 1 := Nat.mod_eq_of_lt (htime last hmem)
    rw [Option.map_some, Option.getD_some, hmod]
    omega

/-- The entry of a channel is the only one. -/
theorem erased_fresh {entries : List Entry} {channel : Text} (h : (entries.map (·.id)).Nodup) :
    channel ∉ (entries.eraseP (·.id == channel)).map (·.id) := by
  induction entries with
  | nil => exact List.not_mem_nil
  | cons e rest ih =>
    obtain ⟨he, hrest⟩ := List.nodup_cons.mp h
    rw [List.eraseP_cons]
    cases hid : e.id == channel with
    | true => exact eq_of_beq hid ▸ he
    | false =>
      rw [cond_false, List.map_cons, List.mem_cons, not_or]
      exact ⟨Ne.symm (ne_of_beq_false hid), ih hrest⟩

/-- The time of a change is a `u64`. -/
theorem time_lt {now : Nat} (h : now < 2 ^ 64) (last : Nat) :
    max now ((last + 1) % 2 ^ 64) < 2 ^ 64 := by
  omega

/-- A change on time keeps the invariant, also when the list is full. -/
theorem setPrefs_prefs (h : PrefsInv s) {channel : Text} {u : PrefsUpdate} {now : Nat}
    (htimely : Timely s now) :
    PrefsInv (s.setPrefs channel u now) := by
  have hsub : (s.prefs.eraseP (·.id == channel)).Sublist s.prefs := List.eraseP_sublist
  have hlisted := h.listed.sublist hsub
  have hold : (((s.prefs.find? (·.id == channel)).map (·.prefs)).getD {} : Prefs).Clean := by
    cases hfind : s.prefs.find? (·.id == channel) with
    | none => exact ⟨nofun, nofun⟩
    | some e => exact (h.listed.stored e (List.mem_of_find?_eq_some hfind)).clean
  unfold Store.setPrefs
  dsimp only
  split
  next => exact hlisted.save (hsub.length_le.trans h.cap)
  next hused =>
    have hlater (p : Prefs) := appended_before channel p now hlisted.ordered
      fun e he => htimely.2 e (hsub.subset he)
    have hpushed := hlisted.push (hlater _) (erased_fresh h.listed.ids)
      ⟨Bool.eq_false_iff.mpr hused, hold.update u, time_lt htimely.1 _⟩
    exact (hpushed.sublist (newest_sublist _)).save (newest_length _)

end Sonara.Settings
