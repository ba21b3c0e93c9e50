import Sonara.Lib.Shelf
import Sonara.Log.Names

/-!
# Rotation

The files of a stream are shelves: its file is 0 and its segment `n` is `n`, and what was
written first lies highest. Each rename of a rotation moves one of them up (`rename_up`);
the last number there is, `U32_MAX`, is the only shelf that is replaced.
-/

namespace Sonara.Log

open Sonara.Text
open Lib (downFrom)

/-! ## Folders -/

namespace Folder

/-- Erasing a file takes its bytes from the total. -/
theorem total_erase {d : Folder} {name : Text} {f : File} (h : d.lookup name = some f) :
    d.total = f.len + Folder.total (d.erase name) := by
  have hmem : name ∈ d.entries.keys := AList.lookup_isSome.mp (by rw [h]; rfl)
  obtain ⟨g, l₁, l₂, hno, hcut, herase⟩ := List.exists_of_kerase hmem
  have hg : g = f := by
    have hlook : d.entries.dlookup name = some g := by
      have hmem' : (⟨name, g⟩ : Sigma fun _ : Text => File) ∈ d.entries := by
        rw [hcut]
        exact List.mem_append_right _ List.mem_cons_self
      exact List.mem_dlookup d.nodupKeys hmem'
    exact Option.some.inj (hlook.symm.trans h)
  have hleft : (d.erase name).entries = l₁ ++ l₂ := herase
  unfold Folder.total
  rw [hleft, hcut, hg]
  simp only [List.map_append, List.map_cons, List.sum_append, List.sum_cons]
  omega

theorem total_insert (d : Folder) (name : Text) (f : File) :
    Folder.total (d.insert name f) = f.len + Folder.total (d.erase name) := by
  unfold Folder.total
  rw [AList.entries_insert, List.map_cons, List.sum_cons]
  rfl

theorem total_erase_none {d : Folder} {name : Text} (h : d.lookup name = none) :
    Folder.total (d.erase name) = d.total := by
  have hno : name ∉ d.entries.keys := AList.lookup_eq_none.mp h
  unfold Folder.total
  have herase : (d.erase name).entries = d.entries := List.kerase_of_notMem_keys hno
  rw [herase]

/-- A folder without files has no bytes. -/
theorem total_empty {d : Folder} (h : ∀ name, d.lookup name = none) : d.total = 0 := by
  have hnil : d.entries = [] := by
    cases he : d.entries with
    | nil => rfl
    | cons e es =>
      have hmem : e.1 ∈ d := by
        show e.1 ∈ d.entries.keys
        rw [he]
        exact List.mem_cons_self
      exact absurd hmem (AList.lookup_eq_none.mp (h e.1))
  unfold Folder.total
  rw [hnil]
  rfl

/-- A file after a rename. -/
theorem lookup_rename {d : Folder} {old new : Text} {f : File} (h : d.lookup old = some f)
    (name : Text) :
    AList.lookup name (d.rename old new) =
      if name = new then some f else if name = old then none else d.lookup name := by
  unfold Folder.rename
  rw [h]
  dsimp only
  split
  next hnew => rw [hnew, AList.lookup_insert]
  next hnew =>
    rw [AList.lookup_insert_ne hnew]
    split
    next hold => rw [hold, AList.lookup_erase]
    next hold => rw [AList.lookup_erase_ne hold]

end Folder

/-! ## What a folder keeps -/

/-- Text that ends no line in the middle. -/
def Whole (t : Text) : Prop := t = [] ∨ ∃ b, t = b ++ ['\n']

/-- The files are the streams' files, and of a stream's files the higher number was written
before. -/
structure Ordered (clock : Nat) (d : Folder) : Prop where
  named : ∀ {name f}, d.lookup name = some f →
    ∃ s n, validStream s = true ∧ n ≤ U32_MAX ∧ name = nameOf s n
  whole : ∀ {name f}, d.lookup name = some f → Whole f.text
  times : ∀ {s m n f g}, validStream s = true → m < n → d.lookup (nameOf s m) = some f →
    d.lookup (nameOf s n) = some g → g.modified ≤ f.modified
  clock : ∀ {name f}, d.lookup name = some f → f.modified ≤ clock

/-- The lines of the stream's file `n`. -/
def linesAt (d : Folder) (s : Text) (n : Nat) : List Text := lines (d.textOf (nameOf s n))

/-- The lines of a stream's files, the first written first. -/
def linesOf (d : Folder) (s : Text) : List Text := downFrom (linesAt d s) (U32_MAX + 1)

theorem linesAt_none {d : Folder} {s : Text} {n : Nat} (h : d.lookup (nameOf s n) = none) :
    linesAt d s n = [] := by
  unfold linesAt Folder.textOf
  rw [h]
  rfl

theorem linesAt_congr {d d' : Folder} {s : Text} {m n : Nat}
    (h : d'.lookup (nameOf s m) = d.lookup (nameOf s n)) :
    linesAt d' s m = linesAt d s n := by
  unfold linesAt Folder.textOf
  rw [h]

/-- A folder that lost its oldest lines at most: each file is one of the files before. -/
structure Shrinks (clock : Nat) (d d' : Folder) : Prop where
  ordered : Ordered clock d'
  within : ∀ {name f}, d'.lookup name = some f → ∃ name', d.lookup name' = some f
  reads : ∀ {s}, validStream s = true → linesOf d' s <:+ linesOf d s

variable {clock : Nat} {d d' d'' : Folder} {s : Text}

theorem Shrinks.refl (h : Ordered clock d) : Shrinks clock d d where
  ordered := h
  within := fun {name _} h => ⟨name, h⟩
  reads := fun _ => List.suffix_rfl

theorem Shrinks.trans (h : Shrinks clock d d') (h' : Shrinks clock d' d'') :
    Shrinks clock d d'' where
  ordered := h'.ordered
  within := fun {name f} hf => by
    obtain ⟨name', hname'⟩ := h'.within hf
    exact h.within hname'
  reads := fun hs => (h'.reads hs).trans (h.reads hs)

/-- The names of the others. -/
theorem nameOf_ne {s' : Text} {m n : Nat} (hs : validStream s = true) (hs' : validStream s' = true)
    (h : s' ≠ s ∨ m ≠ n) : nameOf s' m ≠ nameOf s n := by
  intro he
  obtain ⟨rfl, rfl⟩ := nameOf_inj hs' hs he
  rcases h with h | h
  · exact h rfl
  · exact h rfl

/-! ## One file moves up -/

/-- A segment after one was renamed up. -/
theorem lookup_up {n : Nat} {f : File} (hs : validStream s = true)
    (hf : d.lookup (nameOf s n) = some f) {s' : Text} (hs' : validStream s' = true) (m : Nat) :
    AList.lookup (nameOf s' m) (d.rename (nameOf s n) (nameOf s (n + 1))) =
      if s' = s ∧ m = n + 1 then some f else if s' = s ∧ m = n then none else d.lookup
      (nameOf s' m) := by
  have hiff : ∀ k, nameOf s' m = nameOf s k ↔ s' = s ∧ m = k := by
    intro k
    constructor
    · exact nameOf_inj hs' hs
    · rintro ⟨rfl, rfl⟩
      rfl
  rw [Folder.lookup_rename hf]
  simp only [hiff]

/-- **A file moves up** to the number above it, if that is free or the last there is. -/
theorem rename_up {n : Nat} (h : Ordered clock d) (hs : validStream s = true)
    (hin : nameOf s n ∈ d) (hn : n < U32_MAX)
    (hfree : d.lookup (nameOf s (n + 1)) = none ∨ n + 1 = U32_MAX) :
    Shrinks clock d (d.rename (nameOf s n) (nameOf s (n + 1))) := by
  obtain ⟨f, hf⟩ := Option.isSome_iff_exists.mp (AList.lookup_isSome.mpr hin)
  have hwithin : ∀ {name g}, AList.lookup name (d.rename (nameOf s n) (nameOf s (n + 1))) = some g →
      ∃ name', d.lookup name' = some g := by
    intro name g hg
    rw [Folder.lookup_rename hf] at hg
    split at hg
    · exact ⟨_, hf.trans hg⟩
    · split at hg
      · cases hg
      · exact ⟨name, hg⟩
  refine ⟨⟨fun {name g} hg => ?_, fun hg => ?_, fun {s' i j g g'} hs' hij hg hg' => ?_,
    fun hg => ?_⟩,
    hwithin, fun {s'} hs' => ?_⟩
  · rw [Folder.lookup_rename hf] at hg
    split at hg
    next hname => exact ⟨s, n + 1, hs, hn, hname⟩
    next =>
      split at hg
      · cases hg
      · exact h.named hg
  · obtain ⟨name', hg'⟩ := hwithin hg
    exact h.whole hg'
  · rw [lookup_up hs hf hs'] at hg hg'
    by_cases hsame : s' = s
    · subst hsame
      simp only [true_and] at hg hg'
      -- `n + 1` holds what `n` held: where it stood decides.
      by_cases hi : i = n + 1
      · rw [if_pos hi] at hg
        rw [if_neg (by omega), if_neg (by omega)] at hg'
        obtain rfl := Option.some.inj hg
        exact h.times hs (show n < j by omega) hf hg'
      · rw [if_neg hi] at hg
        have hin : i ≠ n := by
          intro he
          rw [if_pos he] at hg
          cases hg
        rw [if_neg hin] at hg
        by_cases hj : j = n + 1
        · rw [if_pos hj] at hg'
          obtain rfl := Option.some.inj hg'
          exact h.times hs (show i < n by omega) hg hf
        · rw [if_neg hj] at hg'
          have hjn : j ≠ n := by
            intro he
            rw [if_pos he] at hg'
            cases hg'
          rw [if_neg hjn] at hg'
          exact h.times hs hij hg hg'
    · rw [if_neg (fun he => hsame he.1), if_neg (fun he => hsame he.1)] at hg hg'
      exact h.times hs' hij hg hg'
  · obtain ⟨name', hg'⟩ := hwithin hg
    exact h.clock hg'
  · by_cases hsame : s' = s
    · subst hsame
      have hlook := lookup_up hs hf hs
      have hmoved : linesAt (d.rename (nameOf s' n) (nameOf s' (n + 1))) s'
          (n + 1) = linesAt d s' n := by
        refine linesAt_congr ?_
        rw [hlook, if_pos ⟨rfl, rfl⟩, hf]
      have hempty : linesAt (d.rename (nameOf s' n) (nameOf s' (n + 1))) s' n = [] := by
        refine linesAt_none ?_
        rw [hlook, if_neg (by omega), if_pos ⟨rfl, rfl⟩]
      have hother : ∀ m, m ≠ n → m ≠ n + 1 →
          linesAt (d.rename (nameOf s' n) (nameOf s' (n + 1))) s' m = linesAt d s' m := by
        intro m hm hm'
        refine linesAt_congr ?_
        rw [hlook, if_neg (fun he => hm' he.2), if_neg (fun he => hm he.2)]
      unfold linesOf
      rcases hfree with hfree | hlast
      · rw [Lib.downFrom_up (by omega) (linesAt_none hfree) hmoved hempty hother]
      · rw [← hlast]
        exact Lib.downFrom_top hmoved hempty fun m hm => hother m (by omega) (by omega)
    · unfold linesOf
      rw [Lib.downFrom_congr fun m _ => linesAt_congr ?_]
      rw [lookup_up hs hf hs', if_neg (fun he => hsame he.1), if_neg (fun he => hsame he.1)]

/-- A file renamed to its own name. -/
theorem rename_self {name : Text} (h : Ordered clock d) (hin : name ∈ d) :
    Shrinks clock d (d.rename name name) := by
  obtain ⟨f, hf⟩ := Option.isSome_iff_exists.mp (AList.lookup_isSome.mpr hin)
  have hlook : ∀ name', AList.lookup name' (d.rename name name) = d.lookup name' := by
    intro name'
    rw [Folder.lookup_rename hf]
    split
    next he => rw [he, hf]
    · rfl
  refine ⟨⟨fun hg => ?_, fun hg => ?_, fun hs' hij hg hg' => ?_, fun hg => ?_⟩,
    fun {name' g} hg => ?_, fun {s'} hs' => ?_⟩
  · rw [hlook] at hg
    exact h.named hg
  · rw [hlook] at hg
    exact h.whole hg
  · rw [hlook] at hg hg'
    exact h.times hs' hij hg hg'
  · rw [hlook] at hg
    exact h.clock hg
  · rw [hlook] at hg
    exact ⟨name', hg⟩
  · unfold linesOf
    rw [Lib.downFrom_congr fun m _ => linesAt_congr (hlook (nameOf s' m))]

/-! ## The stream's numbers -/

/-- The numbers of a stream are those of its files. -/
theorem mem_numbers (h : Ordered clock d) (hs : validStream s = true) {n : Nat} :
    n ∈ numbers s d ↔ 0 < n ∧ n ≤ U32_MAX ∧ nameOf s n ∈ d := by
  unfold numbers
  rw [List.mem_insertionSort, List.mem_filterMap]
  constructor
  · rintro ⟨name, hmem, hnum⟩
    obtain ⟨f, hf⟩ := Option.isSome_iff_exists.mp (AList.lookup_isSome.mpr hmem)
    obtain ⟨s', m, hs', hm, rfl⟩ := h.named hf
    by_cases hsame : s' = s
    · subst hsame
      rw [segmentNumber_nameOf hm] at hnum
      split at hnum
      · cases hnum
      next hpos =>
        obtain rfl := Option.some.inj hnum
        exact ⟨Nat.pos_of_ne_zero hpos, hm, hmem⟩
    · rw [segmentNumber_other hs hs' fun he => hsame he.symm] at hnum
      cases hnum
  · rintro ⟨hpos, hn, hmem⟩
    refine ⟨nameOf s n, hmem, ?_⟩
    rw [segmentNumber_nameOf hn, if_neg (Nat.ne_of_gt hpos)]

/-- A name's number tells it among the stream's. -/
theorem name_of_number (h : Ordered clock d) (hs : validStream s = true) {name : Text}
    (hin : name ∈ d) {n : Nat} (hn : segmentNumber name s = some n) : name = nameOf s n := by
  obtain ⟨f, hf⟩ := Option.isSome_iff_exists.mp (AList.lookup_isSome.mpr hin)
  obtain ⟨s', m, hs', hm, rfl⟩ := h.named hf
  by_cases hsame : s' = s
  · subst hsame
    rw [segmentNumber_nameOf hm] at hn
    split at hn
    · cases hn
    · rw [Option.some.inj hn]
  · rw [segmentNumber_other hs hs' fun he => hsame he.symm] at hn
    cases hn

/-- The numbers of a stream are sorted, each once. -/
theorem numbers_sorted (h : Ordered clock d) (hs : validStream s = true) :
    (numbers s d).Pairwise (· > ·) := by
  have hnodup : (numbers s d).Nodup := by
    unfold numbers
    rw [(List.perm_insertionSort _ _).nodup_iff]
    refine List.pairwise_filterMap.mpr (d.keys_nodup.imp_of_mem fun {a b} ha hb hne => ?_)
    rintro m hm n hn rfl
    exact hne ((name_of_number h hs ha hm).trans (name_of_number h hs hb hn).symm)
  have hsorted : (numbers s d).Pairwise (· ≥ ·) := List.pairwise_insertionSort _ _
  refine (hsorted.and hnodup).imp fun {m n} hmn => ?_
  have hle : m ≥ n := hmn.1
  have hne : m ≠ n := hmn.2
  show m > n
  omega

/-- The stream's lines, as the files are read. -/
theorem lines_numbers (h : Ordered clock d) (hs : validStream s = true) :
    (numbers s d).flatMap (linesAt d s) ++ linesAt d s 0 = linesOf d s := by
  have hdown : (numbers s d ++ [0]).flatMap (linesAt d s) = linesOf d s := by
    refine Lib.flatMap_downFrom ?_ ?_ ?_
    · refine List.pairwise_append.mpr ⟨numbers_sorted h hs, List.pairwise_singleton _ _,
        fun m hm n hn => ?_⟩
      rw [List.mem_singleton.mp hn]
      exact ((mem_numbers h hs).mp hm).1
    · intro n hn
      rcases List.mem_append.mp hn with hn | hn
      · exact Nat.lt_succ_of_le ((mem_numbers h hs).mp hn).2.1
      · rw [List.mem_singleton.mp hn]
        exact Nat.succ_pos _
    · intro n hn hno
      refine linesAt_none (AList.lookup_eq_none.mpr fun hmem => hno ?_)
      by_cases hzero : n = 0
      · rw [hzero]
        exact List.mem_append_right _ List.mem_cons_self
      · exact List.mem_append_left _
          ((mem_numbers h hs).mpr ⟨Nat.pos_of_ne_zero hzero, Nat.le_of_lt_succ hn, hmem⟩)
  rw [← hdown, List.flatMap_append, List.flatMap_singleton]

/-! ## A rotation -/

/-- Where a renamed file of the stream stands. -/
theorem lookup_rename_own {i j : Nat} (hs : validStream s = true) {f : File}
    (hf : d.lookup (nameOf s i) = some f)
    (k : Nat) : AList.lookup (nameOf s k) (d.rename (nameOf s i) (nameOf s j)) =
      if k = j then some f else if k = i then none else d.lookup (nameOf s k) := by
  have hiff : ∀ m, nameOf s k = nameOf s m ↔ k = m := fun m =>
    ⟨fun he => (nameOf_inj hs hs he).2, fun he => by rw [he]⟩
  rw [Folder.lookup_rename hf]
  simp only [hiff]

/-- One segment of a rotation: the last number stays where it is. -/
theorem rename_next {n : Nat} (h : Ordered clock d) (hs : validStream s = true)
    (hin : nameOf s n ∈ d)
    (hn : n ≤ U32_MAX) (hfree : d.lookup (nameOf s (n + 1)) = none ∨ U32_MAX ≤ n + 1) :
    Shrinks clock d (d.rename (nameOf s n) (nameOf s (min (n + 1) U32_MAX))) := by
  by_cases hlast : n = U32_MAX
  · rw [Nat.min_eq_right (by omega), ← hlast]
    exact rename_self h hin
  · rw [Nat.min_eq_left (by omega)]
    exact rename_up h hs hin (by omega) (hfree.imp_right fun hle => by omega)

/-- The segments move up, the highest first. -/
theorem shift_shrinks (hs : validStream s = true) {ns : List Nat} (hsorted : ns.Pairwise (· > ·))
    (hns : ∀ n ∈ ns, 0 < n ∧ n ≤ U32_MAX ∧ nameOf s n ∈ d) (h : Ordered clock d)
    (hfree : ∀ n ∈ ns, n + 1 ∉ ns → d.lookup (nameOf s (n + 1)) = none ∨ U32_MAX ≤ n + 1) :
    ∃ d', shift Faults.none s ns d = (d', true) ∧ Shrinks clock d d' ∧
      d'.lookup (nameOf s 0) = d.lookup (nameOf s 0) ∧
      (1 ∈ ns ∨ d.lookup (nameOf s 1) = none → d'.lookup (nameOf s 1) = none) := by
  induction ns generalizing d with
  | nil => exact ⟨d, rfl, .refl h, rfl, fun hone => hone.resolve_left List.not_mem_nil⟩
  | cons n ns ih =>
    obtain ⟨hhead, htail⟩ := List.pairwise_cons.mp hsorted
    obtain ⟨hpos, hn, hin⟩ := hns n List.mem_cons_self
    have hfresh : n + 1 ∉ n :: ns := by
      intro hmem
      rcases List.mem_cons.mp hmem with he | hmem
      · omega
      · have hgt := hhead _ hmem
        omega
    -- The highest number moves up first, so no rename meets a file.
    have hstep := rename_next h hs hin hn (hfree n List.mem_cons_self hfresh)
    obtain ⟨f, hf⟩ := Option.isSome_iff_exists.mp (AList.lookup_isSome.mpr hin)
    have hbelow : ∀ k, k < n →
        AList.lookup (nameOf s k) (d.rename (nameOf s n) (nameOf s (min (n + 1) U32_MAX))) =
          d.lookup (nameOf s k) := by
      intro k hk
      rw [lookup_rename_own hs hf, if_neg (by omega), if_neg (by omega)]
    have hleft : n < U32_MAX →
        AList.lookup (nameOf s n) (d.rename (nameOf s n) (nameOf s (min (n + 1) U32_MAX))) =
          none := by
      intro hlt
      rw [lookup_rename_own hs hf, if_neg (by omega), if_pos rfl]
    generalize hd₁ : d.rename (nameOf s n) (nameOf s (min (n + 1) U32_MAX)) = d₁
      at hstep hbelow hleft
    have hrest : ∀ m ∈ ns, 0 < m ∧ m ≤ U32_MAX ∧ nameOf s m ∈ d₁ := by
      intro m hm
      obtain ⟨hmpos, hm', hmin⟩ := hns m (List.mem_cons_of_mem n hm)
      refine ⟨hmpos, hm', ?_⟩
      rw [← AList.lookup_isSome, hbelow m (hhead m hm)]
      exact AList.lookup_isSome.mpr hmin
    have hroom : ∀ m ∈ ns, m + 1 ∉ ns → d₁.lookup (nameOf s (m + 1)) = none ∨ U32_MAX ≤ m + 1 := by
      intro m hm hno
      have hlt := hhead m hm
      by_cases hnext : m + 1 = n
      · by_cases hmax : n < U32_MAX
        · left
          rw [hnext]
          exact hleft hmax
        · right
          omega
      · rw [hbelow (m + 1) (by omega)]
        refine hfree m (List.mem_cons_of_mem n hm) fun hmem => ?_
        rcases List.mem_cons.mp hmem with he | hmem
        · exact hnext he
        · exact hno hmem
    obtain ⟨d', hshift, hshrinks, hzero, hone⟩ := ih htail hrest hstep.ordered hroom
    refine ⟨d', ?_, hstep.trans hshrinks, hzero.trans (hbelow 0 hpos), fun hfirst => hone ?_⟩
    · have htarget : segmentPath s (min (n + 1) U32_MAX) = nameOf s (min (n + 1) U32_MAX) :=
        (nameOf_pos s (by omega)).symm
      show (if false = true then _ else shift Faults.none s ns (Folder.rename d (segmentPath s n)
        (segmentPath s (min (n + 1) U32_MAX)))) = _
      rw [if_neg Bool.false_ne_true, htarget, ← nameOf_pos s hpos, hd₁]
      exact hshift
    · by_cases hnone : n = 1
      · right
        rw [← hnone]
        exact hleft (by rw [hnone]; decide)
      · rcases hfirst with hfirst | hfirst
        · exact .inl ((List.mem_cons.mp hfirst).resolve_left fun he => hnone he.symm)
        · right
          rw [hbelow 1 (by omega)]
          exact hfirst

/-- **A rotation** keeps the stream's lines, but for those of the last number there is, and
takes away its file. -/
theorem rotate_shrinks (h : Ordered clock d) (hs : validStream s = true) (hin : path s ∈ d)
    (now : Nat) :
    Shrinks clock d (rotate Faults.none s now d) ∧ path s ∉ rotate Faults.none s now d := by
  have hin : nameOf s 0 ∈ d := hin
  have hroom : ∀ n ∈ numbers s d, n + 1 ∉ numbers s d → d.lookup (nameOf s (n + 1)) = none ∨
      U32_MAX ≤ n + 1 := by
    -- A number above a segment that is none is too large.
    intro n hn hno
    by_cases hmax : n + 1 ≤ U32_MAX
    · left
      exact AList.lookup_eq_none.mpr fun hmem => hno ((mem_numbers h hs).mpr ⟨by omega, hmax, hmem⟩)
    · right
      omega
  obtain ⟨d', hshift, hshrinks, hzero, hone⟩ := shift_shrinks hs (numbers_sorted h hs)
    (fun n hn => (mem_numbers h hs).mp hn) h hroom
  have hfirst : d'.lookup (nameOf s 1) = none := by
    refine hone ?_
    by_cases hmem : nameOf s 1 ∈ d
    · exact .inl ((mem_numbers h hs).mpr ⟨Nat.one_pos, by decide, hmem⟩)
    · exact .inr (AList.lookup_eq_none.mpr hmem)
  have hin' : nameOf s 0 ∈ d' := by
    rw [← AList.lookup_isSome, hzero]
    exact AList.lookup_isSome.mpr hin
  have hrotate : rotate Faults.none s now d = d'.rename (nameOf s 0) (nameOf s 1) := by
    unfold rotate
    rw [hshift]
    rfl
  rw [hrotate]
  refine ⟨hshrinks.trans (rename_up hshrinks.ordered hs hin' (by decide) (.inl hfirst)), ?_⟩
  obtain ⟨f, hf⟩ := Option.isSome_iff_exists.mp (AList.lookup_isSome.mpr hin')
  rw [← AList.lookup_eq_none]
  show AList.lookup (nameOf s 0) _ = none
  rw [lookup_rename_own hs hf, if_neg (by decide), if_pos rfl]
end Sonara.Log
