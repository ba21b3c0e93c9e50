import Sonara.Kokoro.Download

/-!
# What each call does

Before a step other threads ask to `begin` (`World.tick`); a claimed fetch lets none of them in
(`Held`). Each call on the folder then leaves the folder as it says, or it stops; what a caller
needs of a call is in its lemma, so that no later proof looks into one.
-/

namespace Sonara.Kokoro

open Lib (Stop Effects Ends)

variable {o : Outside} {w : World}

/-! ## Other threads -/

/-- Another folder. -/
def World.withFolder (w : World) (d : Folder) : World := { w with folder := d }

theorem begin_folder (w : World) (now : Nat) : (w.begin now).2.folder = w.folder := by
  unfold World.begin
  dsimp only
  split
  · rfl
  · split
    · split <;> rfl
    · rfl

theorem begins_folder (w : World) (nows : List Nat) : (w.begins nows).folder = w.folder := by
  induction nows generalizing w with
  | nil => rfl
  | cons now nows ih => exact (ih (w.begin now).2).trans (begin_folder w now)

@[simp] theorem tick_folder (w : World) : (w.tick o).folder = w.folder := begins_folder w _

theorem begin_running (h : w.state.running = true) (now : Nat) : (w.begin now).2 = w := by
  unfold World.begin
  rw [if_pos h]

theorem begins_running (h : w.state.running = true) (nows : List Nat) : w.begins nows = w := by
  induction nows with
  | nil => rfl
  | cons now nows ih =>
    show World.begins (w.begin now).2 nows = w
    rw [begin_running h, ih]

/-- While a fetch runs, nothing else happens. -/
theorem tick_running (h : w.state.running = true) : w.tick o = { w with calls := w.calls + 1 } := by
  unfold World.tick
  rw [begins_running h]

/-! ## Calls on the folder -/

section

variable {α : Type} {Q : α → World → Prop} {E : Stop String → World → Prop}

/-- A call of the platform ends with its answer, or with the step that it tears. -/
theorem ask_ends (c : Call) {act : Nat → Folder → Option (α × Folder)}
    {torn : Nat → Nat → Folder → Folder}
    (hok : ∀ time a d, act time w.folder = some (a, d) → Q a ((w.tick o).withFolder d))
    (hno : ∀ e d, e ≠ .spins → E e ((w.tick o).withFolder d)) :
    Ends (Io.ask o c act torn) w Q E := by
  unfold Ends Io.ask Io.atomic
  dsimp only
  rw [tick_folder]
  cases o.answer w.calls c with
  | ok =>
    dsimp only
    cases h : act (o.clock w.calls) w.folder with
    | none => exact hno (.failed o.missing) (w.tick o).folder nofun
    | some r => exact hok _ r.1 r.2 h
  | fails why done => exact hno (.failed why) _ nofun
  | crashes done => exact hno .crashed _ nofun

/-- A look at the folder answers or fails, and changes nothing. -/
theorem look_ends (c : Call) {act : Folder → Option α}
    (hok : ∀ a, act w.folder = some a → Q a (w.tick o))
    (hno : ∀ e, e ≠ .spins → E e (w.tick o)) : Ends (Io.look o c act) w Q E := by
  have hself : (w.tick o).withFolder w.folder = w.tick o := by rw [← tick_folder (o := o) w]; rfl
  unfold Ends Io.look Io.ask Io.atomic
  dsimp only
  rw [tick_folder]
  cases o.answer w.calls c with
  | ok =>
    dsimp only
    cases h : act w.folder with
    | none => exact hno (.failed o.missing) nofun
    | some a => exact (congrArg (Q a) hself).mpr (hok a h)
  | fails why done => exact (congrArg (E _) hself).mpr (hno (.failed why) nofun)
  | crashes done => exact (congrArg (E _) hself).mpr (hno .crashed nofun)

/-- A change of the folder is made or fails. -/
theorem change_ends {Q : Unit → World → Prop} (c : Call) {act : Nat → Folder → Option Folder}
    (hok : ∀ time d, act time w.folder = some d → Q () ((w.tick o).withFolder d))
    (hno : ∀ e, e ≠ .spins → E e (w.tick o)) : Ends (Io.change o c act) w Q E := by
  have hself : (w.tick o).withFolder w.folder = w.tick o := by rw [← tick_folder (o := o) w]; rfl
  unfold Ends Io.change Io.ask Io.atomic
  dsimp only
  rw [tick_folder]
  cases o.answer w.calls c with
  | ok =>
    dsimp only
    cases h : act (o.clock w.calls) w.folder with
    | none => exact hno (.failed o.missing) nofun
    | some d => exact hok _ d h
  | fails why done => exact (congrArg (E _) hself).mpr (hno (.failed why) nofun)
  | crashes done => exact (congrArg (E _) hself).mpr (hno .crashed nofun)

/-- A file that is there is removed, or the answer says why not. -/
theorem remove_ends {Q : Unit → World → Prop} {name : String} {data : FileData}
    (hdata : w.folder name = some data)
    (hok : Q () ((w.tick o).withFolder (Function.update w.folder name none)))
    (hno : ∀ why done, o.answer w.calls (.remove name) = .fails why done →
      E (.failed why) (w.tick o))
    (hcrash : E .crashed (w.tick o)) : Ends (Io.remove o name) w Q E := by
  have hself : (w.tick o).withFolder w.folder = w.tick o := by rw [← tick_folder (o := o) w]; rfl
  unfold Ends Io.remove Io.change Io.ask Io.atomic
  dsimp only
  rw [tick_folder, hdata]
  cases h : o.answer w.calls (.remove name) with
  | ok => exact hok
  | fails why done => exact (congrArg (E _) hself).mpr (hno why done h)
  | crashes done => exact (congrArg (E _) hself).mpr hcrash

theorem request_ends {Q : Response → World → Prop} {url : Text} {pos : Nat}
    (hok : ∀ r, o.reply w.calls url pos = .ok r → Q r (w.tick o))
    (hno : ∀ why, o.reply w.calls url pos = .error why → E (.failed why) (w.tick o)) :
    Ends (Io.request o url pos) w Q E := by
  unfold Ends Io.request Io.atomic
  dsimp only
  cases h : o.reply w.calls url pos with
  | ok r => exact hok r h
  | error why => exact hno why h

/-! ## Steps of the manager -/

theorem setPhase_ends {Q : Unit → World → Prop} (p : Phase)
    (h : Q () { w.tick o with state := { (w.tick o).state with phase := p } }) :
    Ends (Io.setPhase o p) w Q E := h

theorem note_ends {Q : Unit → World → Prop} {marks : World → List Mark} {l : List Mark}
    (hl : marks w = l)
    (h : Q () { w with marks := l ++ w.marks }) : Ends (Io.note marks) w Q E := by
  subst hl
  exact h

end

end Sonara.Kokoro
