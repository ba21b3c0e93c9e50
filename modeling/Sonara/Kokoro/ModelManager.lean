import Sonara.Kokoro.Recovered
import Sonara.Kokoro.Rounds
import Sonara.Lib.System

/-!
# The model manager accepts what is pinned, and recovers

In every run, with calls that fail and processes that crash, a fetch is claimed by one at a time and
nothing is accepted that does not have the pinned hash. A fetch ends unless a `.part` is too long
and can never be removed, and from any folder one fetch more than there are files is enough.
-/

namespace Sonara.Kokoro

open Lib (Resolves)

/-! ## Every run -/

/-- The manager and its folder, from any folder on. -/
def runs (o : Outside) (m : Manager) : Lib.System System Event where
  init s := ∃ folder, s = System.initial folder
  step := System.step o m

variable {o : Outside} {m : Manager} {s : System}

theorem runs_inv (h : (runs o m).Reaches s) : System.Inv o s := by
  refine h.invariant ?_ fun _ _ _ hi hs => hi.step hs
  rintro s ⟨folder, rfl⟩
  exact initial_inv folder

/-- **One fetch runs at a time**, and none is claimed before the retry time of the last failure. -/
theorem fetch_claimed (h : (runs o m).Reaches s) : Orderly s.world.marks := (runs_inv h).orderly

/-- **No wrong file is accepted**, whatever fails and wherever the process crashes. -/
theorem accepted_pinned (h : (runs o m).Reaches s) : Pinned o s.world.marks := (runs_inv h).pinned

/-! ## A server that serves the files -/

theorem pinnedFiles_apart (base : Text) : Apart (pinnedFiles base) := by
  have hmem {f : ModelFile} (hf : f ∈ pinnedFiles base) :
      (f.name = MODEL_FILE ∨ f.name = VOICES_FILE) ∧ 0 < f.size := by
    rcases List.mem_cons.mp hf with rfl | hf
    · exact ⟨.inl rfl, (by decide : 0 < 325532387)⟩
    · obtain rfl := List.mem_singleton.mp hf
      exact ⟨.inr rfl, (by decide : 0 < 28214398)⟩
  refine ⟨fun f hf g hg => ?_, fun f hf => ?_, fun f hf => (hmem hf).2⟩
  · unfold ModelFile.part
    rcases (hmem hf).1 with hf | hf <;> rcases (hmem hg).1 with hg | hg <;> rw [hf, hg] <;> decide
  · unfold ModelFile.part
    rcases (hmem hf).1 with hf | hf <;> rw [hf] <;> decide

/-- **The manager recovers.** Whatever an earlier process left, one fetch more than there are files
is enough when the server serves them. -/
theorem manager_recovers {content : ModelFile → List UInt8} (S : Serves o m.files content)
    (A : Apart m.files) {w : World} {rounds : Nat} (hr : 2 ≤ rounds) :
    ∃ k ≤ m.files.length + 1, (m.fetches o rounds k w).state.phase = .ready := by
  obtain ⟨n, rfl⟩ := Nat.exists_eq_add_of_le' hr
  exact fetches_ready S A n List.countP_le_length

/-! ## Two files of one byte -/

/-- Two files of one byte each. -/
def letters : Manager where
  dir := "models"
  files := [{ name := "a", url := ['a'], sha256 := ['x'], size := 1 },
    { name := "b", url := ['b'], sha256 := ['y'], size := 1 }]
  backoff := { first := 30, max := 1800 }

/-- A server that sends whole files, and calls that are answered by `answer`. -/
def sends (answer : Call → Answer) : Outside where
  sha256 bytes := bytes.map fun b => Char.ofNat b.toNat
  parse _ := none
  render _ := none
  answer _ c := answer c
  missing := "not found"
  reply _ url _ := .ok {
    status := 200
    contentRange := none
    reads := [if url = ['a'] then [120] else [121]]
    cut := none }
  clock _ := 0
  now _ := 0
  late _ := false
  others _ := []

def letter (f : ModelFile) : List UInt8 := f.sha256.map fun c => c.toNat.toUInt8

theorem letters_apart : Apart letters.files := by
  refine ⟨by decide, by decide, by decide⟩

theorem letters_served : Serves (sends fun _ => .ok) letters.files letter := by
  refine ⟨fun _ _ => rfl, by decide, by decide,
    fun n f hf pos hpos => ⟨_, rfl, rfl, ?_, .inl ⟨rfl, ?_⟩⟩⟩
  · rcases List.mem_cons.mp hf with rfl | hf
    · decide
    · obtain rfl := List.mem_singleton.mp hf
      decide
  · rcases List.mem_cons.mp hf with rfl | hf
    · decide
    · obtain rfl := List.mem_singleton.mp hf
      decide

/-- A process that may not create the folder fails, and may begin again when it waited. -/
theorem fetch_claimed_again : Orderly [.began 30, .ended (some 30), .began 0, .started] :=
  fetch_claimed (o := sends fun _ => .fails "access denied" 0) (m := letters)
    ⟨System.initial fun _ => none, [.start, .begin 0, .fetch 1, .begin 29, .begin 30],
      ⟨_, rfl⟩, rfl⟩

/-- Both files are fetched into an empty folder. -/
def fetched : Option System :=
  (runs (sends fun _ => .ok) letters).run (System.initial fun _ => none)
    [.start, .begin 0, .fetch 1]

theorem letters_pinned : ∃ s, fetched = some s ∧ s.world.state.phase = .ready ∧
    Pinned (sends fun _ => .ok) s.world.marks := by
  have hready : fetched.map (·.world.state.phase) = some .ready := by decide +kernel
  obtain ⟨s, hs, hphase⟩ := Option.map_eq_some_iff.mp hready
  exact ⟨s, hs, hphase, accepted_pinned ⟨_, _, ⟨_, rfl⟩, hs⟩⟩

/-- Two wrong `.part`s. -/
theorem letters_recover : ∃ k ≤ 3,
    (letters.fetches (sends fun _ => .ok) 2 k
      { folder := fun name =>
        if name = "a.part" ∨ name = "b.part" then some { bytes := [0], modified := 0 }
        else none }).state.phase =
      .ready :=
  manager_recovers (o := sends fun _ => .ok) (m := letters) letters_served letters_apart
    (Nat.le_refl 2)

end Sonara.Kokoro
