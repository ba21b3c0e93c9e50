import Mathlib.Data.List.Nodup
import Sonara.Strings

/-!
# The keymap (`keymap.rs`): actions, keys and chords

A hotkey action has a binding: a key and modifiers by name, or none. `resolve` gives the
bound actions as key codes and masks. Keys and modifiers have more than one name, so the
same chord can be written in several ways.

A `Keymap` has a binding for every action: a function.
-/

namespace Sonara.Keymap

open Sonara.Text

abbrev txt (s : String) : Text := s.toList

/-- What a hotkey does. -/
inductive Action where
  | restart
  | flush
  | pause
  | mute
  | nextChannel
  | faster
  | slower
  | previousQuestion
  | nextQuestion
  deriving DecidableEq, Repr

namespace Action

/-- Every action, in the order of the registration ids. -/
def all : List Action :=
  [restart, flush, pause, mute, nextChannel, faster, slower, previousQuestion, nextQuestion]

def asStr : Action → Text
  | restart => txt "restart"
  | flush => txt "flush"
  | pause => txt "pause"
  | mute => txt "mute"
  | nextChannel => txt "next_channel"
  | faster => txt "faster"
  | slower => txt "slower"
  | previousQuestion => txt "previous_question"
  | nextQuestion => txt "next_question"

/-- The names that an action may have: its own, and those of the Python plugin. -/
def names : List (Text × Action) :=
  all.map (fun a => (a.asStr, a)) ++ [(txt "nav_start", restart), (txt "next_session", nextChannel)]

/-- The action of a name. -/
def parse (name : Text) : Option Action := (names.find? (·.1 = name)).map Prod.snd

theorem parse_asStr (a : Action) : parse a.asStr = some a := by
  cases a <;> decide

theorem asStr_inj {a b : Action} (h : a.asStr = b.asStr) : a = b := by
  have hparse := congrArg parse h
  rw [parse_asStr, parse_asStr] at hparse
  exact Option.some.inj hparse

theorem mem_all (a : Action) : a ∈ all := by
  cases a <;> decide

end Action

def MOD_ALT : Nat := 0x0001

def MOD_CTRL : Nat := 0x0002

def MOD_SHIFT : Nat := 0x0004

def MOD_WIN : Nat := 0x0008

/-- The default chord is Ctrl+Alt. -/
def DEFAULT_MODS : List Text := [txt "ctrl", txt "alt"]

/-- Action and default key; the others ship unbound. -/
def DEFAULT_KEYS : List (Action × Text) :=
  [(.restart, txt "up"), (.flush, txt "down"), (.mute, txt "m"), (.nextChannel, txt "p")]

/-- Named keys and their virtual-key codes. -/
def NAMED_KEYS : List (Text × Nat) :=
  [(txt "period", 0xBE), (txt ".", 0xBE), (txt "rightbracket", 0xDD), (txt "]", 0xDD),
    (txt "leftbracket", 0xDB), (txt "[", 0xDB), (txt "left", 0x25), (txt "leftarrow", 0x25),
    (txt "up", 0x26), (txt "uparrow", 0x26), (txt "right", 0x27), (txt "rightarrow", 0x27),
    (txt "down", 0x28), (txt "downarrow", 0x28), (txt "home", 0x24), (txt "end", 0x23),
    (txt "pageup", 0x21), (txt "pagedown", 0x22)]

def MODS : List (Text × Nat) :=
  [(txt "alt", MOD_ALT), (txt "ctrl", MOD_CTRL), (txt "control", MOD_CTRL),
    (txt "shift", MOD_SHIFT),
    (txt "win", MOD_WIN), (txt "cmd", MOD_WIN)]

/-- `to_ascii_lowercase`. -/
def lower (t : Text) : Text := t.map Char.toLower

/-- The virtual-key code of a key name (case-insensitive). -/
def keyCode (name : Text) : Option Nat :=
  let n := lower name
  match NAMED_KEYS.find? (·.1 = n) with
  | some k => some k.2
  | none =>
    match n with
    | [c] =>
      if c.isLower then some c.toUpper.toNat
      else if c.isDigit then some c.toNat
      else none
    | _ => none

def modMask (name : Text) : Option Nat := (MODS.find? (·.1 = lower name)).map Prod.snd

/-- One action's chord: without a key (or with an empty one) it is unbound. -/
structure Binding where
  key : Option Text := none
  mods : List Text := []
  deriving DecidableEq, Repr

namespace Binding

def unbound : Binding := {}

def isBound (b : Binding) : Bool := b.key.any (· ≠ [])

end Binding

/-- Every action with its binding. -/
abbrev Map := Action → Binding

def Map.set (km : Map) (action : Action) (b : Binding) : Map := Function.update km action b

def defaultBinding (action : Action) : Binding :=
  ((DEFAULT_KEYS.find? (·.1 = action)).map fun k =>
    ({ key := some k.2, mods := DEFAULT_MODS } : Binding)).getD {}

/-- The default keymap: Ctrl+Alt+Up/Down/M/P, the rest unbound. -/
def defaults : Map := defaultBinding

/-- A binding ready to register. -/
structure Resolved where
  action : Action
  vk : Nat
  mods : Nat
  deriving DecidableEq, Repr

/-- The mask of these modifiers, the unknown ones left out. -/
def maskOf (mods : List Text) : Nat := mods.foldl (fun mask m => mask ||| (modMask m).getD 0) 0

/-- The body of the loop of `resolve`. -/
def resolveOne (action : Action) (b : Binding) : Option Resolved × List Text :=
  if !b.isBound then (none, [])
  else
    let key := b.key.getD []
    match keyCode key with
    | none => (none, [action.asStr ++ txt ": unknown key '" ++ key ++ txt "'"])
    | some vk =>
      let unknown := b.mods.filter fun m => modMask m = none
      if unknown = [] then (some ⟨action, vk, maskOf b.mods⟩, [])
      else (none, unknown.map fun m => action.asStr ++ txt ": unknown modifier '" ++ m ++ txt "'")

/-- The bound actions as key codes and masks. An entry with an unknown key or modifier is
skipped and reported. -/
def resolve (km : Map) : List Resolved × List Text :=
  (Action.all.filterMap fun a => (resolveOne a (km a)).1,
    Action.all.flatMap fun a => (resolveOne a (km a)).2)

/-- How a chord reads: `Ctrl+Alt+Up` (Win first, as Windows writes it). -/
def comboLabel (mods vk : Nat) : Text :=
  let parts := ([(MOD_WIN, txt "Win"), (MOD_CTRL, txt "Ctrl"), (MOD_SHIFT, txt "Shift"),
    (MOD_ALT, txt "Alt")].filter fun m => mods &&& m.1 ≠ 0).map Prod.snd
  let named : List (Nat × Text) :=
    [(0xBE, txt "."), (0xDD, txt "]"), (0xDB, txt "["), (0x25, txt "Left"),
    (0x26, txt "Up"), (0x27, txt "Right"), (0x28, txt "Down"), (0x24, txt "Home"),
    (0x23, txt "End"),
    (0x21, txt "PageUp"), (0x22, txt "PageDown")]
  let label := match named.find? (·.1 = vk) with
    | some k => k.2
    | none =>
      if (0x41 ≤ vk ∧ vk ≤ 0x5A) ∨ (0x30 ≤ vk ∧ vk ≤ 0x39) then [Char.ofNat vk]
      else txt "key" ++ (toString vk).toList
  join ['+'] (parts ++ [label])

/-! ## What is resolved -/

/-- Lower case is lower case already. -/
theorem toLower_toLower (c : Char) : c.toLower.toLower = c.toLower := by
  have hcases : ∀ d : Char, ('A'.val ≤ d.val ∧ d.val ≤ 'Z'.val) ∨ d.toLower = d := by
    intro d
    by_cases h : d.val ≥ 'A'.val ∧ d.val ≤ 'Z'.val
    · exact .inl h
    · exact .inr (dif_neg h)
  rcases hcases c with ⟨hlow, hhigh⟩ | h
  · have hval : c.toLower.val = c.val + ('a'.val - 'A'.val) := by
      unfold Char.toLower
      rw [dif_pos ⟨hlow, hhigh⟩]
    refine dif_neg fun hupper => ?_
    have hle := hupper.2
    rw [hval] at hle
    have h1 := UInt32.le_iff_toNat_le.mp hlow
    have h2 := UInt32.le_iff_toNat_le.mp hhigh
    have h3 := UInt32.le_iff_toNat_le.mp hle
    have ha : 'A'.val.toNat = 65 := rfl
    have hz : 'Z'.val.toNat = 90 := rfl
    have hd : ('a'.val - 'A'.val).toNat = 32 := rfl
    rw [UInt32.toNat_add, hd, hz] at h3
    omega
  · rw [h, h]

theorem lower_lower (t : Text) : lower (lower t) = lower t := by
  unfold lower
  rw [List.map_map]
  exact List.map_congr_left fun c _ => toLower_toLower c

theorem modMask_lower (t : Text) : modMask (lower t) = modMask t := by
  unfold modMask
  rw [lower_lower]

variable {km : Map} {r : Resolved} {action : Action} {b : Binding}

theorem resolveOne_action (h : (resolveOne action b).1 = some r) : r.action = action := by
  unfold resolveOne at h
  split at h
  · cases h
  · dsimp only at h
    split at h
    · cases h
    · split at h
      · obtain rfl := Option.some.inj h
        rfl
      · cases h

/-- An action resolves to what its binding says. -/
theorem mem_resolve : r ∈ (resolve km).1 ↔ (resolveOne r.action (km r.action)).1 = some r := by
  constructor
  · intro h
    obtain ⟨a, -, ha⟩ := List.mem_filterMap.mp h
    rw [resolveOne_action ha]
    exact ha
  · intro h
    exact List.mem_filterMap.mpr ⟨r.action, r.action.mem_all, h⟩

theorem resolve_noProblem : (resolve km).2 = [] ↔ ∀ a, (resolveOne a (km a)).2 = [] := by
  constructor
  · intro h a
    exact List.flatMap_eq_nil_iff.mp h a a.mem_all
  · intro h
    exact List.flatMap_eq_nil_iff.mpr fun a _ => h a

/-- A binding with a known key and known modifiers. -/
theorem resolveOne_known {key : Text} {mods : List Text} {vk : Nat} (hkey : key ≠ [])
    (hvk : keyCode key = some vk) (hmods : ∀ m ∈ mods, modMask m ≠ none) :
    resolveOne action { key := some key, mods := mods } = (some ⟨action, vk, maskOf mods⟩, []) := by
  have hbound : (!(Binding.mk (some key) mods).isBound) = false := by
    unfold Binding.isBound
    simp [hkey]
  have hunknown : mods.filter (fun m => modMask m = none) = [] := by
    rw [List.filter_eq_nil_iff]
    intro m hm
    simpa using hmods m hm
  unfold resolveOne
  rw [hbound]
  dsimp only [Option.getD_some]
  rw [if_neg (by decide), hvk]
  dsimp only
  rw [if_pos hunknown]

/-- No two actions resolve to the same chord. -/
def Apart (km : Map) : Prop :=
  ∀ x ∈ (resolve km).1, ∀ y ∈ (resolve km).1, x.vk = y.vk → x.mods = y.mods → x.action = y.action

theorem defaults_apart : Apart defaults := by
  unfold Apart
  decide

theorem defaults_noProblem : (resolve defaults).2 = [] := by decide

end Sonara.Keymap
