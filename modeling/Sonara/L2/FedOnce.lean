import Sonara.L2.Driven

/-!
# One item at a time, and none forgotten

The driver's invariants, read at every state a run reaches. The reader holds at most one item the
driver fed, and it is the one in flight, unless somebody had the reader read after `pump_fed` found
it idle and before it fed: then the item waits in the reader's queue, and an interrupt feeds a
second one beside it (`spokenBetween`). Once every end is delivered and the reader is idle nothing
is in flight. Then nothing is left to feed either, unless an entry was put back with `set_aside`
since the driver last looked: `set_aside` feeds nothing.
-/

namespace Sonara.L2

open Sonara (Text)
open L1 (ItemId QueueMode Control)

namespace Channels

variable (split : L1.Chunking → Text → List Text)

/-- What a run of the driver leaves. -/
structure FedOnce (s : Channels) (clean : Prop) (fresh : Bool) : Prop where
  /-- A fed item that is current or queued is the one in flight. -/
  one : clean → ∀ id ∈ s.fed, id ∈ s.reader.ids → s.inFlight.map InFlight.id = some id
  /-- It is current, not queued. -/
  named : clean → ∀ id ∈ s.fed, id ∈ s.reader.ids →
    s.reader.current.map (·.item.id) = some id
  empty : s.ended = [] → s.reader.current = none → s.reader.queue = [] → s.inFlight = none
  rest : fresh = true → s.ended = [] → s.reader.current = none → s.reader.queue = [] →
    s.router.hasWork.2 = false

/-- **The reader is fed one item at a time, and is not left waiting**, in every run. -/
theorem fed_once (config : Config) (ts : List DriverTurn) :
    FedOnce ((new config).run split ts) (Clean ts) (freshAfter split true (new config) ts) := by
  have F : Fit split (Clean ts) _ _ := run_fit config ts
  have hempty : ((new config).run split ts).ended = [] →
      ((new config).run split ts).reader.current = none →
      ((new config).run split ts).inFlight = none := by
    intro hended hidle
    cases hf : ((new config).run split ts).inFlight with
    | none => rfl
    | some f =>
      rcases (F.owed f hf).2 with hlive | hin
      · rw [(F.reader.idle split hidle).2] at hlive
        cases hlive
      · rw [hended] at hin
        cases hin
  exact
    { one := fun hclean id hid hlive => (F.only hclean id hid hlive).2
      named := fun hclean id hid hlive => (F.only hclean id hid hlive).1
      empty := fun hended hidle _ => hempty hended hidle
      rest := fun hfresh hended hidle _ => (Router.hasWork_false_iff F.router.holdActive).mpr
        (F.fresh hfresh (hempty hended hidle) hidle hended) }

/-- The second entry is set aside while the first is read, and put back when it was. -/
def putBack : List DriverTurn :=
  [DriverOp.add "a" "One.".toList false, .add "a" "Two.".toList false, .setAside "a" 2 true,
    .reader (.onAudio (.chunkFinished 1)), .deliver, .setAside "a" 2 false,
    .openChannel "b" none none none].map DriverOp.alone

/-- An entry put back waits for the next feed, whatever comes before that. -/
theorem not_rest_after_other :
    ((new Config.default).run oneChunk putBack).ended = [] ∧
      ((new Config.default).run oneChunk putBack).reader.current = none ∧
      ((new Config.default).run oneChunk putBack).reader.queue = [] ∧
      putBack.getLast?.map DriverTurn.op = some (.openChannel "b" none none none) ∧
      ((new Config.default).run oneChunk putBack).router.hasWork.2 = true := by
  refine ⟨?_, ?_, ?_, rfl, ?_⟩
  all_goals rfl

/-- A text is spoken to the reader between the look of a pump and its feed, and an interrupt
follows. -/
def spokenBetween : List DriverTurn :=
  [{ op := .add "a" "One.".toList false
     meanwhile := { calls := [], atFeed := [.speak "Direct.".toList .append false none] } },
    (DriverOp.speak "b" "Two.".toList none true none).alone]

/-- The item fed behind the direct text is still queued when the interrupt feeds the next one. -/
example :
    ((new Config.default).run oneChunk spokenBetween).fed = [2, 3] ∧
      ((new Config.default).run oneChunk spokenBetween).reader.ids = [3, 2] ∧
      ((new Config.default).run oneChunk spokenBetween).inFlight.map InFlight.id = some 3 := by
  refine ⟨?_, ?_, ?_⟩
  all_goals rfl

end Channels

end Sonara.L2
