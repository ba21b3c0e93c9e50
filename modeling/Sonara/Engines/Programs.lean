import Sonara.Engines.KeysBound
import Sonara.Engines.Registered

/-!
# Programs come from the file

A `command` profile runs a program on this PC, so no request adds or changes one. `Call.programs` is
what one call does to the programs among the entries; over a run, every one was in a file another
program wrote (`programs_stay`).
-/

namespace Sonara.Engines

open Sonara.Text

variable {R : Rules} {h : History} {rt rt' : Runtime}

/-- The programs of `rt'` are those of `rt`, but for one with the id `gone`. -/
structure SamePrograms (gone : Option Text) (rt rt' : Runtime) : Prop where
  none_new : ∀ e ∈ rt'.entries, isCommand e.raw = true → e ∈ rt.entries
  none_lost : ∀ e ∈ rt.entries, isCommand e.raw = true → gone ≠ some e.id → e ∈ rt'.entries

theorem SamePrograms.same {gone : Option Text} (he : rt'.entries = rt.entries) :
    SamePrograms gone rt rt' where
  none_new e h _ := by rwa [← he]
  none_lost e h _ _ := by rwa [he]

/-- An entry that is no program, put where no program is, leaves the programs. -/
theorem put_programs {x : Entry} (hi : Indexed rt.entries) (hx : isCommand x.raw ≠ true)
    (hplace : ∀ e, entryOf x.id rt.entries = some e → isCommand e.raw ≠ true)
    (he : rt'.entries = put x rt.entries) : SamePrograms none rt rt' where
  none_new e hmem hc := by
    rw [he] at hmem
    rcases mem_put hmem with rfl | hmem
    · exact absurd hc hx
    · exact hmem
  none_lost e hmem hc _ := by
    have hne : e.id ≠ x.id := fun hid => hplace e ((entryOf_iff hi).mpr ⟨hmem, hid⟩) hc
    rw [he]
    unfold put
    split
    · refine List.mem_map.mpr ⟨e, hmem, ?_⟩
      exact if_neg hne
    · exact List.mem_append_left _ hmem

theorem admitted_place {id : Text} {replace : Bool} {entries : List Entry}
    (ha : admitted id replace entries = .ok ()) :
    ∀ e, entryOf id entries = some e → isCommand e.raw ≠ true := by
  intro e he hc
  unfold admitted at ha
  rw [he] at ha
  dsimp only at ha
  rw [if_pos hc] at ha
  cases ha

/-- An `engine_add` of another kind leaves every command engine in memory. -/
theorem addLocked_programs (hi : Indexed rt.entries) {p : Profile} (hkind : p.kind ≠ .command)
    (secret : Option Text)
    (replace : Bool) (fails : Option Text) :
    SamePrograms none rt (addLocked R p secret replace fails rt).2 := by
  unfold addLocked
  cases ha : admitted p.id replace rt.entries with
  | error e => exact .same rfl
  | ok u =>
    dsimp only
    cases bindKey R p secret rt.keys with
    | mk done keys =>
      cases done with
      | error e => exact .same rfl
      | ok u =>
        dsimp only
        have hx := stored_no_command (R := R) hkind ((entryOf p.id rt.entries).map (·.raw))
        generalize stored R p ((entryOf p.id rt.entries).map (·.raw)) = raw at hx
        cases build R raw with
        | error e => exact .same rfl
        | ok built =>
          have hput : ∀ rt', rt'.entries = put ⟨p.id, raw, .ready built⟩ rt.entries →
              SamePrograms none rt rt' :=
            fun rt' he => put_programs (x := ⟨p.id, raw, .ready built⟩) hi hx (admitted_place ha) he
          cases fails with
          | none => exact hput _ rfl
          | some e => exact hput _ rfl

/-- The id of a call that removes an entry. -/
def Call.removes : Call → Option Text
  | .remove id _ => some id
  | _ => none

/-- **What a call does to the programs**: nothing, but that `engine_remove` takes out the one it
names, after the file was read again or not. -/
theorem Call.programs (hi : Indexed rt.entries) (c : Call) (fails : Option Text) :
    ∃ rt₀, (rt₀ = rt ∨ rt₀ = (Engines.reload R rt).2) ∧ SamePrograms c.removes rt₀
    (c.run R fails rt).2 := by
  have htook : (takeInFileChanges R rt).2 = rt ∨
      (takeInFileChanges R rt).2 = (Engines.reload R rt).2 := by
    unfold takeInFileChanges
    split
    · refine .inr ?_
      cases Engines.reload R rt with
      | mk done rt₀ => cases done <;> rfl
    · exact .inl rfl
  have hindexed : Indexed (takeInFileChanges R rt).2.entries := by
    rcases takeInFileChanges_spec (R := R) rt with ⟨e, he⟩ | ⟨he, -⟩ | ⟨keys, entries, he, hi', -⟩
    · rw [he]; exact hi
    · rw [he]; exact hi
    · rw [he]; exact hi'
  cases c with
  | add engine secret replace =>
    unfold Call.run Engines.add Call.removes
    dsimp only
    cases hreq : requested R engine secret rt.entries with
    | error e => exact ⟨rt, .inl rfl, .same rfl⟩
    | ok p =>
      dsimp only
      revert htook hindexed
      cases takeInFileChanges R rt with
      | mk done rt₀ =>
        intro htook hindexed
        refine ⟨rt₀, htook, ?_⟩
        cases done with
        | error e => exact .same rfl
        | ok u => exact addLocked_programs hindexed (requested_kind hreq) secret replace fails
  | remove id forgetKey =>
    unfold Call.run Engines.remove Call.removes
    dsimp only
    revert htook hindexed
    cases takeInFileChanges R rt with
    | mk done rt₀ =>
      intro htook hindexed
      refine ⟨rt₀, htook, ?_⟩
      cases done with
      | error e => exact .same rfl
      | ok u =>
        dsimp only
        cases he : entryOf id rt₀.entries with
        | none => exact .same rfl
        | some x =>
          refine ⟨fun e hmem _ => List.mem_of_mem_erase hmem, fun e hmem _ hid => ?_⟩
          refine (List.mem_erase_of_ne fun heq => hid ?_).mpr hmem
          rw [heq, ((entryOf_iff hindexed).mp he).2]
  | reload =>
    exact ⟨(Engines.reload R rt).2, .inr rfl, .same rfl⟩
  | setKey env id secret => exact ⟨rt, .inl rfl, .same (setKey_leaves env id secret rt).1⟩

/-- **Every program was in a file that another program wrote**: as an entry, in the engine built
from it, and on disk; and a call leaves the programs, but for the one that `engine_remove` names. -/
theorem programs_stay (hR : R.ReadsBack) (run : Run R h rt) :
    (∀ e ∈ rt.entries, isCommand e.raw = true → h.Wrote R e.raw) ∧
    (∀ e ∈ rt.entries, ∀ p, e.state = .ready p → p.kind = .command →
      h.Wrote R e.raw ∧ Json.field (txt "argv") p.options = (e.raw.get (txt "options")).bind
      (Json.get (txt "argv"))) ∧
    (∀ raws legacy, parseFile R (readText rt.home.file) = .ok (raws, legacy) →
      ∀ raw ∈ raws, isCommand raw = true → h.Wrote R raw) ∧
    ∀ (c : Call) fails, ∃ rt₀, (rt₀ = rt ∨ rt₀ = (Engines.reload R rt).2) ∧
      SamePrograms c.removes rt₀ (c.run R fails rt).2 := by
  obtain ⟨H, -⟩ := run.sound hR
  refine ⟨fun e he hc => (H.entries e he).raw.program hc, fun e he p hp hk => ?_,
    fun raws legacy hp raw hr hc => (H.disk.local hp raw hr).program hc,
    fun c fails => c.programs H.indexed fails⟩
  have B := build_built ((H.entries e he).built p hp)
  exact ⟨(H.entries e he).raw.program (B.kind hk), B.argv⟩

/-- The runtime on a file with a program. -/
def bareSpeaker : Runtime :=
  (load pageRules ⟨some (.text speakerText), none⟩ ⟨fun _ => none, []⟩ true none).2

theorem bareSpeaker_run : Run pageRules ⟨writtenIn pageRules (some speakerText), []⟩ bareSpeaker :=
  .first ⟨some (.text speakerText), none⟩ ⟨fun _ => none, []⟩ [] true none (by
    intro id k hk
    cases hk)

theorem speaker_stays :
    (bareSpeaker.entries.any fun e => isCommand e.raw) = true ∧
      ∀ e ∈ bareSpeaker.entries, isCommand e.raw = true →
        History.Wrote pageRules ⟨writtenIn pageRules (some speakerText), []⟩ e.raw :=
  ⟨by decide +kernel, (programs_stay pageRules_readsBack bareSpeaker_run).1⟩

end Sonara.Engines
