import Sonara.Engines.Saved

/-!
# `engines.json` is not lost

What a call of a client does to the file, in any run in which no save failed since the
file was last read or saved: it fails and leaves the bytes, or it succeeds and the file
is the one before with the named entry edited. A file that was no JSON at load counts
as empty and is overwritten (it was copied aside); one that became so later is not.
-/

namespace Sonara.Engines

open Sonara.Text

variable (R : Rules)

/-- The file is missing or text. -/
def Readable (file : Option Content) : Prop := ∀ b, file ≠ some (.bytes b)

/-- The file after an edit: it holds the entries of before, edited. -/
def Edited (before after : Option Content) (edit : List Json → List Json) : Prop :=
  ∃ raws, Shows R (readText before) raws ∧
    after = some (.text (R.print (document (edit raws))))

variable {R}

/-- A call that edits the list leaves the file or edits it: the edit is one of those (`P`)
that its edit of the list in memory stands for. -/
theorem Outcome.file {fails : Option Text} {edits : List Entry → List Entry → Prop}
    {rt : Runtime} {r : Except Failure Unit × Runtime} (h : Outcome (R := R) fails edits rt r)
    (P : (List Json → List Json) → Prop) (hi : Indexed rt.entries) (hs : InStep R rt)
    (he : ∀ entries next, Indexed entries → edits entries next →
      ∃ edit, P edit ∧ next.map (·.raw) = edit (entries.map (·.raw))) :
    (∃ e, r.1 = .error e ∧ r.2.home.file = rt.home.file) ∨
    (r.1 = .ok () ∧ (∃ edit, P edit ∧ Edited R rt.home.file r.2.home.file edit) ∧
      ∀ t why, rt.home.file = some (.text t) → R.parse t = .error why → rt.seen = some t) := by
  cases h with
  | refused e ht => exact .inl ⟨e, rfl, by rw [ht.home]⟩
  | unsaved e _ _ _ hhome => exact .inl ⟨e, rfl, by rw [hhome]⟩
  | @saved rt₀ rt' ht hseen hjson hedit hfile _ =>
    obtain ⟨edit, hP, hraws⟩ := he _ _ (ht.indexed hi) hedit
    have hshows : Shows R (readText rt.home.file) (rt₀.entries.map (·.raw)) := by
      have := ht.inStep hs
      unfold InStep at this
      rwa [hseen] at this
    refine .inr ⟨rfl, ⟨edit, hP, _, hshows, by rw [hfile, hraws]⟩, ?_⟩
    intro t why ht hwhy
    have hp : parseFile R (readText rt.home.file) =
        .error (txt "engines.json is not valid JSON (" ++ why ++ txt ")") := by
      rw [ht]
      simp only [readText, parseFile, hwhy]
    rw [hjson _ hp, ht]
    rfl

theorem Puts.raws {id : Text} {entries next : List Entry} (hi : Indexed entries)
    (h : Puts id entries next) :
    ∃ edit, (∃ raw, idOf raw = some id ∧ edit = putRaw id raw) ∧
      next.map (·.raw) = edit (entries.map (·.raw)) := by
  obtain ⟨e, rfl, hid, rfl⟩ := h
  exact ⟨_, ⟨e.raw, hid, rfl⟩, put_raws hi e⟩

theorem Drops.raws {id : Text} {entries next : List Entry} (hi : Indexed entries)
    (h : Drops id entries next) :
    ∃ edit, edit = List.filter (idOf · != some id) ∧
      next.map (·.raw) = edit (entries.map (·.raw)) := by
  obtain ⟨e, he, rfl⟩ := h
  exact ⟨_, rfl, erase_raws hi he⟩

theorem map_unit_ok {α : Type} {x : Except Failure α} (h : (x.map fun _ => ()) = .ok ()) :
    ∃ a, x = .ok a := by
  cases x with
  | error e => cases h
  | ok a => exact ⟨a, rfl⟩

theorem map_unit_error {α : Type} {x : Except Failure α} {e : Failure}
    (h : (x.map fun _ => ()) = .error e) : x = .error e := by
  cases x with
  | error e' => exact congrArg _ (Except.error.inj h)
  | ok a => cases h

/-- In a run in which no save failed since the file was last read or saved, an add or a
remove fails and leaves the file, or the file, when it is missing or text, then holds
its entries with the named one edited; and text that is no JSON is overwritten only
when the runtime has seen just that text. -/
theorem engines_json_kept {rt : Runtime} (h : Steady R rt) (fails : Option Text) :
    (∀ engine secret replace, let r := add R engine secret replace fails rt
      (∃ e, r.1 = .error e ∧ r.2.home.file = rt.home.file) ∨
      (∃ b id raw, r.1 = .ok b ∧ idOf engine = some id ∧ idOf raw = some id ∧
        (Readable rt.home.file → Edited R rt.home.file r.2.home.file (putRaw id raw)) ∧
        ∀ t why, rt.home.file = some (.text t) → R.parse t = .error why → rt.seen = some t)) ∧
    (∀ id forgetKey, let r := remove R id forgetKey fails rt
      (∃ e, r.1 = .error e ∧ r.2.home.file = rt.home.file) ∨
      (r.1 = .ok () ∧
        (Readable rt.home.file →
          Edited R rt.home.file r.2.home.file (List.filter (idOf · != some id))) ∧
        ∀ t why, rt.home.file = some (.text t) → R.parse t = .error why → rt.seen = some t)) := by
  have hi := h.reached.indexed
  have hs := h.inStep
  constructor
  · intro engine secret replace
    obtain ⟨id, ho, hid⟩ := add_outcome (R := R) engine secret replace fails rt
    rcases ho.file (fun edit => ∃ raw, idOf raw = some id ∧ edit = putRaw id raw) hi hs
      (fun _ _ hi hp => Puts.raws hi hp) with ⟨e, he, hf⟩ | ⟨hok, ⟨edit, ⟨raw, hraw, rfl⟩, hed⟩, hj⟩
    · exact .inl ⟨e, map_unit_error he, hf⟩
    · obtain ⟨b, hb⟩ := map_unit_ok hok
      exact .inr ⟨b, id, raw, hb, hid b hb, hraw, fun _ => hed, hj⟩
  · intro id forgetKey
    have ho := remove_outcome (R := R) id forgetKey fails rt
    rcases ho.file (· = List.filter (idOf · != some id)) hi hs
      (fun _ _ hi hd => Drops.raws hi hd) with hf | ⟨hok, ⟨edit, rfl, hed⟩, hj⟩
    · exact .inl hf
    · exact .inr ⟨hok, fun _ => hed, hj⟩

/-- The profile added below, as it is stored. -/
def voiceServer : Json :=
  .object [(txt "id", .string (txt "el")), (txt "key_ref", .string (txt "credman")),
    (txt "kind", .string (txt "elevenlabs")), (txt "options", .object [])]

/-- The file with that profile alone. -/
def voiceServerText : Text :=
  txt "\x7b\n  \"engines\": [\n    \x7b\n      \"id\": \"el\",\n" ++
    txt "      \"key_ref\": \"credman\",\n      \"kind\": \"elevenlabs\",\n" ++
    txt "      \"options\": \x7b\x7d\n    \x7d\n  ],\n  \"format\": 2\n\x7d"

/-- The file without profiles. -/
def noEnginesText : Text := txt "\x7b\n  \"engines\": [],\n  \"format\": 2\n\x7d"

/-- What the code rests on, at the texts and profiles of the runs below. -/
def sampleRules : Rules where
  validate _ := none
  checkNew _ := none
  urlOrigin u := if u = txt "https://api.elevenlabs.io" then some (u ++ txt ":443") else none
  urlLoopback _ := false
  lowercase t := t.map Char.toLower
  parse t :=
    if t = voiceServerText then .ok (document [voiceServer])
    else if t = noEnginesText then .ok (document [])
    else .error (txt "key must be a string at line 1 column 2")
  print v := if v = document [voiceServer] then voiceServerText else noEnginesText

/-- A runtime that loaded a file holding the text. -/
def loaded (t : Text) : Runtime :=
  (load sampleRules ⟨some (.text t), none⟩ ⟨fun _ => none, []⟩ true none).2

theorem loaded_steady (t : Text) : Steady sampleRules (loaded t) := .load _ _ _

/-- The request that adds the profile. -/
def addVoiceServer (rt : Runtime) : Except Failure Bool × Runtime :=
  add sampleRules (.object [(txt "id", .string (txt "el")),
    (txt "kind", .string (txt "elevenlabs"))])
    none false none rt

/-- The file with a profile that has no id. -/
def namelessText : Text :=
  txt "\x7b\"engines\": [\x7b\"kind\": \"elevenlabs\"\x7d], \"format\": 2\x7d"

/-- The same, for that file as well. -/
def namelessRules : Rules :=
  { sampleRules with
    parse := fun t =>
      if t = namelessText then .ok (document [.object [(txt "kind", .string (txt "elevenlabs"))]])
      else sampleRules.parse t }

/-- The runtime that loaded it. -/
def loadedNameless : Runtime :=
  (load namelessRules ⟨some (.text namelessText), none⟩ ⟨fun _ => none, []⟩ true none).2

/-- The file after the same request there. -/
def addedToNameless : Option Content :=
  (add namelessRules (.object [(txt "id", .string (txt "el")),
    (txt "kind", .string (txt "elevenlabs"))])
    none false none loadedNameless).2.home.file

/-- A file that was no JSON at load is overwritten by the next add, and one with an entry without an
id loses it. -/
theorem broken_file_overwritten :
    (sampleRules.parse (txt "\x7bnot json")).toOption = none ∧
    (loaded (txt "\x7bnot json")).home.file = some (.text (txt "\x7bnot json")) ∧
    (loaded (txt "\x7bnot json")).home.aside = some (.text (txt "\x7bnot json")) ∧
    (addVoiceServer (loaded (txt "\x7bnot json"))).1.toOption = some false ∧
    (addVoiceServer (loaded (txt "\x7bnot json"))).2.home.file = some (.text voiceServerText) ∧
    loadedNameless.home.file = some (.text namelessText) ∧ addedToNameless = some
    (.text voiceServerText) := by
  refine ⟨?_, ?_, ?_, ?_, ?_, ?_, ?_⟩ <;> decide +kernel

theorem engines_json_kept_remove :
    let rt := loaded voiceServerText
    let r := remove sampleRules (txt "el") true none rt
    (∃ e, r.1 = .error e ∧ r.2.home.file = rt.home.file) ∨
    (r.1 = .ok () ∧
      (Readable rt.home.file →
        Edited sampleRules rt.home.file r.2.home.file (List.filter (idOf · != some (txt "el")))) ∧
      ∀ t why, rt.home.file = some (.text t) → sampleRules.parse t = .error why →
        rt.seen = some t) :=
  (engines_json_kept (loaded_steady voiceServerText) none).2 (txt "el") true

end Sonara.Engines
