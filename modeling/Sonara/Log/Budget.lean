import Sonara.Log.Rotation

/-!
# The budget

Pruning takes files from the front of a list sorted by age, so of each stream it takes the
oldest lines (`prune_shrinks`), and it goes on until the line fits or nothing but the
stream's own file is left (`makeRoom_fits`). So after every append the folder is within
its budget and every stream's files hold the end of what was written to it (`log_kept`).
-/

namespace Sonara.Log

open Sonara.Text
open Lib (downFrom)

variable {clock : Nat} {d : Folder} {s : Text} {l : LogDir}

/-! ## Pruning -/

/-- The files deleted from the front of the list, and the rest of it. -/
theorem prune_cuts (l : LogDir) (n : Nat) {fs : List Found} (hnodup : (fs.map Found.path).Nodup)
    (hlen : ∀ f ∈ fs, ∃ g, d.lookup f.path = some g ∧ g.len = f.len) {p : Folder × Nat}
    (hp : prune l Faults.none n fs (d, d.total) = p) :
    ∃ gone kept, fs = gone ++ kept ∧ p.2 = p.1.total ∧ (p.2 + n ≤ l.budget ∨ kept = []) ∧
      ∀ name, p.1.lookup name = if name ∈ gone.map Found.path then none else d.lookup name := by
  induction fs generalizing d with
  | nil =>
    subst hp
    exact ⟨[], [], rfl, rfl, .inr rfl, fun name => (if_neg List.not_mem_nil).symm⟩
  | cons f fs ih =>
    unfold prune at hp
    split at hp
    next hfits =>
      subst hp
      exact ⟨[], f :: fs, rfl, rfl, .inl hfits, fun name => (if_neg List.not_mem_nil).symm⟩
    next =>
      obtain ⟨g, hg, hsize⟩ := hlen f List.mem_cons_self
      rw [List.map_cons, List.nodup_cons] at hnodup
      have hother : ∀ {name}, name ≠ f.path → AList.lookup name (d.erase f.path) = d.lookup name :=
          fun hne =>
        AList.lookup_erase_ne hne
      have htotal : d.total - f.len = Folder.total (d.erase f.path) := by
        rw [Folder.total_erase hg, hsize]
        omega
      have hlen' : ∀ f' ∈ fs, ∃ g, AList.lookup f'.path (d.erase f.path) = some g ∧
          g.len = f'.len := by
        intro f' hf'
        obtain ⟨g', hg', hsize'⟩ := hlen f' (List.mem_cons_of_mem f hf')
        refine ⟨g', ?_, hsize'⟩
        rw [hother fun he => hnodup.1 (he ▸ List.mem_map_of_mem hf')]
        exact hg'
      have hgo : prune l Faults.none n fs (d.erase f.path, Folder.total (d.erase f.path)) = p := by
        rw [← htotal]
        exact hp
      obtain ⟨gone, kept, rfl, hsum, hfits, hlook⟩ := ih hnodup.2 hlen' hgo
      refine ⟨f :: gone, kept, rfl, hsum, hfits, fun name => ?_⟩
      rw [hlook, List.map_cons]
      by_cases hname : name = f.path
      · rw [hname, if_pos List.mem_cons_self, AList.lookup_erase]
        split
        · rfl
        · rfl
      · rw [hother hname]
        simp only [List.mem_cons, hname, false_or]

theorem mem_files {listing : Text → Nat} {f : Found} (h : f ∈ files listing d) :
    ∃ g, d.lookup f.path = some g ∧ g.len = f.len ∧ g.modified = f.modified ∧
      f.number = anySegmentNumber f.path := by
  obtain ⟨e, he, rfl⟩ := List.mem_map.mp h
  rw [List.mem_insertionSort] at he
  exact ⟨e.2, List.mem_dlookup d.nodupKeys he, rfl, rfl, rfl⟩

theorem files_mem (listing : Text → Nat) {name : Text} {g : File} (h : d.lookup name = some g) :
    name ∈ (files listing d).map Found.path := by
  have hmem : (⟨name, g⟩ : Sigma fun _ : Text => File) ∈ d.entries := List.of_mem_dlookup h
  refine List.mem_map.mpr ⟨_, List.mem_map.mpr ⟨_, (List.mem_insertionSort _).mpr hmem, rfl⟩, rfl⟩

theorem files_nodup (listing : Text → Nat) (d : Folder) :
    ((files listing d).map Found.path).Nodup := by
  unfold files
  rw [List.map_map]
  have hperm := (List.perm_insertionSort
    (fun a b : Sigma fun _ : Text => File => listing a.1 ≤ listing b.1)
    d.entries).map Sigma.fst
  exact hperm.nodup_iff.mpr d.keys_nodup

theorem mem_prunable {listing : Text → Nat} {f : Found} :
    f ∈ prunable listing s d ↔ f ∈ files listing d ∧ f.path ≠ path s := by
  unfold prunable
  rw [List.mem_insertionSort, List.mem_filter, decide_eq_true_eq]

theorem prunable_nodup (listing : Text → Nat) (s : Text) (d : Folder) :
    ((prunable listing s d).map Found.path).Nodup := by
  unfold prunable
  rw [((List.perm_insertionSort _ _).map _).nodup_iff]
  exact ((List.filter_sublist).map _).nodup (files_nodup listing d)

theorem Found.older_total (a b : Found) : a.Older b ∨ b.Older a := by
  unfold Found.Older
  omega

theorem Found.older_trans {a b c : Found} (h : a.Older b) (h' : b.Older c) : a.Older c := by
  unfold Found.Older at *
  omega

theorem prunable_sorted (listing : Text → Nat) (s : Text) (d : Folder) :
    (prunable listing s d).Pairwise Found.Older := by
  have : Std.Total Found.Older := ⟨Found.older_total⟩
  have : IsTrans Found Found.Older := ⟨fun _ _ _ => Found.older_trans⟩
  exact List.pairwise_insertionSort _ _

/-- **Pruning takes the oldest lines** of each stream. -/
theorem prune_shrinks (h : Ordered clock d) (hs : validStream s = true) (l : LogDir)
    (listing : Text → Nat) (n : Nat)
    {p : Folder × Nat} (hp : prune l Faults.none n (prunable listing s d) (d, d.total) = p) :
    Shrinks clock d p.1 ∧ p.2 = p.1.total ∧ p.1.lookup (path s) = d.lookup (path s) ∧
      (p.2 + n ≤ l.budget ∨ ∀ name, name ≠ path s → p.1.lookup name = none) := by
  have hlen : ∀ f ∈ prunable listing s d, ∃ g, d.lookup f.path = some g ∧ g.len = f.len := by
    intro f hf
    obtain ⟨g, hg, hsize, -⟩ := mem_files (mem_prunable.mp hf).1
    exact ⟨g, hg, hsize⟩
  obtain ⟨gone, kept, hcut, hsum, hfits, hlook⟩ :=
    prune_cuts l n (prunable_nodup listing s d) hlen hp
  have hfrom : ∀ {name f}, p.1.lookup name = some f → d.lookup name = some f := by
    intro name f hf
    rw [hlook] at hf
    split at hf
    · cases hf
    · exact hf
  have hsorted := prunable_sorted listing s d
  rw [hcut, List.pairwise_append] at hsorted
  have hmem : ∀ f ∈ gone ++ kept, f ∈ files listing d ∧ f.path ≠ path s := fun f hf =>
    mem_prunable.mp (hcut ▸ hf)
  -- What is found of a name of a stream.
  have hfound : ∀ {s' m f g}, validStream s' = true → f ∈ gone ++ kept → f.path = nameOf s' m →
      d.lookup (nameOf s' m) = some g → f.modified = g.modified ∧ f.number = m := by
    intro s' m f g hs' hf hpath hg
    obtain ⟨g', hg', -, htime, hnumber⟩ := mem_files (hmem f hf).1
    rw [hpath, hg] at hg'
    obtain rfl := Option.some.inj hg'
    obtain ⟨s'', m', hs'', hm', he⟩ := h.named hg
    obtain ⟨-, rfl⟩ := nameOf_inj hs' hs'' he
    refine ⟨htime.symm, ?_⟩
    rw [hnumber, hpath, anySegmentNumber_nameOf hs' hm']
  -- A file of a stream goes only when those of higher numbers are gone.
  have habove : ∀ {s' m k}, validStream s' = true → m < k → nameOf s' m ∈ gone.map Found.path →
      ∀ f, d.lookup (nameOf s' m) = some f → p.1.lookup (nameOf s' k) = none := by
    intro s' m k hs' hmk hgone f hf
    cases hk : p.1.lookup (nameOf s' k) with
    | none => rfl
    | some g =>
      exfalso
      have hg := hfrom hk
      have hstays : nameOf s' k ∉ gone.map Found.path := by
        intro hgone'
        rw [hlook, if_pos hgone'] at hk
        cases hk
      have hcur : nameOf s' k ≠ path s := by
        intro he
        have hzero := (nameOf_inj hs' hs (show nameOf s' k = nameOf s 0 from he)).2
        omega
      obtain ⟨a, ha, hapath⟩ := List.mem_map.mp hgone
      obtain ⟨b, hb, hbpath⟩ := List.mem_map.mp (files_mem listing hg)
      have hbin : b ∈ gone ++ kept := hcut ▸ mem_prunable.mpr ⟨hb, hbpath ▸ hcur⟩
      have hbkept : b ∈ kept := by
        rcases List.mem_append.mp hbin with hb | hb
        · exact absurd (List.mem_map.mpr ⟨b, hb, hbpath⟩) hstays
        · exact hb
      have holder : a.Older b := hsorted.2.2 a ha b hbkept
      obtain ⟨hatime, hanum⟩ := hfound hs' (List.mem_append_left kept ha) hapath hf
      obtain ⟨hbtime, hbnum⟩ := hfound hs' hbin hbpath hg
      have htimes := h.times hs' hmk hf hg
      unfold Found.Older at holder
      omega
  refine ⟨⟨⟨fun hf => h.named (hfrom hf), fun hf => h.whole (hfrom hf), fun hs' hmk hf hg =>
    h.times hs' hmk (hfrom hf) (hfrom hg), fun hf => h.clock (hfrom hf)⟩,
    fun {name f} hf => ⟨name, hfrom hf⟩,
    fun {s'} hs' => ?_⟩, hsum, ?_, hfits.imp_right fun hkept name hne => ?_⟩
  · refine Lib.downFrom_suffix (fun m => ?_) fun m k hmk hne => ?_
    · by_cases hgone : nameOf s' m ∈ gone.map Found.path
      · right
        refine linesAt_none ?_
        rw [hlook, if_pos hgone]
      · left
        refine linesAt_congr ?_
        rw [hlook, if_neg hgone]
    · cases hm : d.lookup (nameOf s' m) with
      | none =>
        have hm' : p.1.lookup (nameOf s' m) = none := by
          rw [hlook, hm]
          split
          · rfl
          · rfl
        exact absurd ((linesAt_none hm').trans (linesAt_none hm).symm) hne
      | some f =>
        refine linesAt_none (habove hs' hmk ?_ f hm)
        by_contra hstays
        refine hne (linesAt_congr ?_)
        rw [hlook, if_neg hstays]
  · rw [hlook, if_neg]
    intro hgone
    obtain ⟨a, ha, hapath⟩ := List.mem_map.mp hgone
    exact (hmem a (List.mem_append_left kept ha)).2 hapath
  · rw [hlook]
    split
    · rfl
    next hstays =>
      cases hname : d.lookup name with
      | none => rfl
      | some g =>
        obtain ⟨b, hb, hbpath⟩ := List.mem_map.mp (files_mem listing hname)
        have hbin : b ∈ gone ++ kept := hcut ▸ mem_prunable.mpr ⟨hb, hbpath ▸ hne⟩
        rw [hkept, List.append_nil] at hbin
        exact absurd (List.mem_map.mpr ⟨b, hbin, hbpath⟩) hstays

/-! ## Room for a line -/

/-- A folder with room for `n` bytes: its oldest lines are gone. -/
structure Room (l : LogDir) (now n : Nat) (s : Text) (d d' : Folder) : Prop where
  ordered : Ordered now d'
  reads : ∀ {s'}, validStream s' = true → linesOf d' s' <:+ linesOf d s'
  others : ∀ {name f}, name ≠ path s → d'.lookup name = some f → ∃ name', d.lookup name' = some f
  own : d'.textOf (path s) = d.textOf (path s) ∨ d'.textOf (path s) = []
  fits : d'.total + n ≤ l.budget

theorem Ordered.later (h : Ordered clock d) {now : Nat} (hnow : clock ≤ now) : Ordered now d where
  named := h.named
  whole := h.whole
  times := h.times
  clock := fun hf => (h.clock hf).trans hnow

theorem len_nil_iff {t : Text} : len t = 0 ↔ t = [] := by
  cases t with
  | nil => exact ⟨fun _ => rfl, fun _ => rfl⟩
  | cons c cs =>
    have hpos := c.utf8Size_pos
    simp only [len, List.map_cons, List.sum_cons, reduceCtorEq, iff_false]
    omega

theorem len_append (t u : Text) : len (t ++ u) = len t + len u := by
  unfold len
  rw [List.map_append, List.sum_append]

theorem lenOf_eq (d : Folder) (name : Text) : d.lenOf name = len (d.textOf name) := by
  unfold Folder.lenOf Folder.textOf
  cases d.lookup name with
  | none => rfl
  | some f => rfl

theorem linesOf_empty (h : ∀ name, d.lookup name = none ∨ d.textOf name = []) (s : Text) :
    linesOf d s = [] := by
  refine Lib.downFrom_nil fun n _ => ?_
  rcases h (nameOf s n) with hnone | hnil
  · exact linesAt_none hnone
  · unfold linesAt
    rw [hnil]
    rfl

/-- With nothing but its own file left, a stream whose line does not fit empties it. -/
theorem emptyCurrent_room (hs : validStream s = true) (now : Nat) {n : Nat} (hn : n ≤ l.budget)
    (hall : ∀ name, name ≠ path s → d.lookup name = none) (hfull : l.budget < d.total + n) :
    ∃ d', emptyCurrent l Faults.none s now n
    (d, d.total) = (d', d'.total) ∧ Room l now n s d d' := by
  -- The folder is this one file.
  have hrest : Folder.total (d.erase (path s)) = 0 := by
    refine Folder.total_empty fun name => ?_
    by_cases hname : name = path s
    · rw [hname, AList.lookup_erase]
    · rw [AList.lookup_erase_ne hname]
      exact hall name hname
  have htotal : d.total = d.lenOf (path s) := by
    unfold Folder.lenOf
    cases hcur : d.lookup (path s) with
    | none =>
      rw [← Folder.total_erase_none hcur, hrest]
      rfl
    | some f =>
      rw [Folder.total_erase hcur, hrest]
      rfl
  have hzero : Folder.total (d.empty (path s) now) = 0 := by
    unfold Folder.empty
    rw [Folder.total_insert, hrest]
    rfl
  refine ⟨d.empty (path s) now, ?_, ?_⟩
  · have hlen : 0 < d.lenOf (path s) := by omega
    unfold emptyCurrent
    dsimp only
    rw [if_pos hfull, if_pos ⟨hlen, Bool.false_ne_true⟩, htotal, Nat.sub_self, hzero]
  · have hlook : ∀ name, AList.lookup name (d.empty (path s) now) =
        if name = path s then some { text := [], modified := now } else none := by
      intro name
      unfold Folder.empty
      split
      next hname => rw [hname, AList.lookup_insert]
      next hname => rw [AList.lookup_insert_ne hname, hall name hname]
    have hname : ∀ {name f}, AList.lookup name (d.empty (path s) now) = some f →
        name = path s ∧ f = { text := [], modified := now } := by
      intro name f hf
      rw [hlook] at hf
      split at hf
      next he => exact ⟨he, (Option.some.inj hf).symm⟩
      next => cases hf
    have htext : ∀ name, Folder.textOf (d.empty (path s) now) name = [] := by
      intro name
      unfold Folder.textOf
      rw [hlook]
      split
      · rfl
      · rfl
    refine ⟨⟨fun hf => ?_, fun hf => ?_, fun {s' i j f g} hs' hij hf hg => ?_, fun hf => ?_⟩,
      fun {s'} _ => ?_,
      fun hne hf => absurd (hname hf).1 hne, .inr (htext _), ?_⟩
    · exact ⟨s, 0, hs, Nat.zero_le _, (hname hf).1⟩
    · rw [(hname hf).2]
      exact .inl rfl
    · have he := (hname hf).1.trans (hname hg).1.symm
      have hsame := (nameOf_inj hs' hs' he).2
      omega
    · rw [(hname hf).2]
    · rw [linesOf_empty fun name => .inr (htext name)]
      exact List.nil_suffix
    · omega

/-- **Room is made** for every line the budget admits. -/
theorem makeRoom_room (h : Ordered clock d) (hs : validStream s = true) {now n : Nat}
    (hnow : clock ≤ now) (hn : n ≤ l.budget) (listing : Text → Nat) :
    ∃ d', makeRoom l Faults.none listing s now n d = (d', d'.total) ∧ Room l now n s d d' := by
  unfold makeRoom
  by_cases hfull : l.budget < d.total + n
  · rw [if_pos hfull]
    generalize hp : prune l Faults.none n (prunable listing s d) (d, d.total) = p
    obtain ⟨hshrinks, hsum, hown, hfits⟩ := prune_shrinks h hs l listing n hp
    obtain ⟨d₁, total⟩ := p
    dsimp only at hshrinks hsum hown hfits
    subst hsum
    by_cases hroom : d₁.total + n ≤ l.budget
    · refine ⟨d₁, if_neg (Nat.not_lt.mpr hroom), hshrinks.ordered.later hnow, hshrinks.reads,
        fun _ hf => hshrinks.within hf, .inl ?_, hroom⟩
      unfold Folder.textOf
      rw [hown]
    · obtain ⟨d', hd', hr⟩ := emptyCurrent_room hs now hn (hfits.resolve_left hroom) (by omega)
      refine ⟨d', hd', hr.ordered, fun hs' => (hr.reads hs').trans (hshrinks.reads hs'),
        fun hne hf => ?_, ?_, hr.fits⟩
      · obtain ⟨name', hname'⟩ := hr.others hne hf
        exact hshrinks.within hname'
      · have htext : d₁.textOf (path s) = d.textOf (path s) := by
          unfold Folder.textOf
          rw [hown]
        rw [← htext]
        exact hr.own
  · rw [if_neg hfull]
    exact ⟨d, rfl, h.later hnow, fun _ => List.suffix_rfl, fun {name f} _ hf => ⟨name, hf⟩,
      .inl rfl, by omega⟩

/-! ## The write -/

theorem lines_append {t : Text} (h : Whole t) (u : Text) : lines (t ++ u) = lines t ++ lines u := by
  have hlast : t = [] ∨ t.getLast? = some '\n' := by
    rcases h with h | ⟨b, hb⟩
    · exact .inl h
    · right
      rw [hb, List.getLast?_append]
      rfl
  exact Text.lines_append hlast u

theorem lines_line {b : Text} (h : '\n' ∉ b) : lines (b ++ ['\n']) = [b ++ ['\n']] := by
  induction b with
  | nil => rfl
  | cons c b ih =>
    rw [List.mem_cons, not_or] at h
    rw [List.cons_append, lines, if_neg fun he => h.1 he.symm, ih h.2]

/-- A line that was flattened has no break. -/
theorem oneLine_line (line : Text) : '\n' ∉ oneLine line := by
  unfold oneLine
  dsimp only
  split
  next =>
    intro hmem
    obtain ⟨c, -, hc⟩ := List.mem_map.mp hmem
    split at hc
    · exact absurd hc (by decide)
    next hno =>
      subst hc
      exact hno (by decide)
  next hno =>
    intro hmem
    exact hno (List.any_eq_true.mpr ⟨'\n', hmem, by decide⟩)

theorem lines_entry (line : Text) : lines (entry line) = [entry line] :=
  lines_line (oneLine_line line)

theorem lookup_write (d : Folder) (name : Text) (now : Nat) (bytes name' : Text) :
    AList.lookup name' (d.write name now bytes) =
      if name' = name then some { text := d.textOf name ++ bytes, modified := now }
      else d.lookup name' := by
  unfold Folder.write
  split
  next he => rw [he, AList.lookup_insert]
  next he => rw [AList.lookup_insert_ne he]

/-- A write adds its bytes to the total. -/
theorem total_write (d : Folder) (name : Text) (now : Nat) (bytes : Text) :
    Folder.total (d.write name now bytes) = d.total + len bytes := by
  unfold Folder.write
  rw [Folder.total_insert]
  show len (d.textOf name ++ bytes) + _ = _
  rw [len_append]
  unfold Folder.textOf
  cases h : d.lookup name with
  | none =>
    rw [Folder.total_erase_none h]
    show 0 + len bytes + _ = _
    omega
  | some f =>
    rw [Folder.total_erase h]
    show len f.text + len bytes + _ = len f.text + _ + len bytes
    omega

theorem textOf_whole (h : Ordered clock d) (name : Text) : Whole (d.textOf name) := by
  unfold Folder.textOf
  cases hf : d.lookup name with
  | none => exact .inl rfl
  | some f => exact h.whole hf

/-- A write keeps the folder in order of time. -/
theorem write_ordered {now : Nat} (h : Ordered now d) (hs : validStream s = true) (line : Text) :
    Ordered now (d.write (path s) now (entry line)) where
  named := fun {name f} hf => by
    rw [lookup_write] at hf
    split at hf
    next he => exact ⟨s, 0, hs, Nat.zero_le _, he⟩
    next => exact h.named hf
  whole := fun {name f} hf => by
    rw [lookup_write] at hf
    split at hf
    next =>
      obtain rfl := Option.some.inj hf
      exact .inr ⟨d.textOf (path s) ++ oneLine line, (List.append_assoc _ _ _).symm⟩
    next => exact h.whole hf
  times := fun {s' m n f g} hs' hmn hf hg => by
    have hn : nameOf s' n ≠ path s := by
      intro he
      have hzero := (nameOf_inj hs' hs (show nameOf s' n = nameOf s 0 from he)).2
      omega
    rw [lookup_write, if_neg hn] at hg
    rw [lookup_write] at hf
    split at hf
    next =>
      obtain rfl := Option.some.inj hf
      exact h.clock hg
    next => exact h.times hs' hmn hf hg
  clock := fun {name f} hf => by
    rw [lookup_write] at hf
    split at hf
    next =>
      obtain rfl := Option.some.inj hf
      exact Nat.le_refl now
    next => exact h.clock hf

/-- The line comes last in its stream. -/
theorem write_reads {now : Nat} (h : Ordered now d) (hs : validStream s = true) (line : Text) :
    linesOf (d.write (path s) now (entry line)) s = linesOf d s ++ [entry line] := by
  refine Lib.downFrom_behind ?_ fun n => linesAt_congr ?_
  · have htext : Folder.textOf (d.write (path s) now (entry line)) (path s) = d.textOf
        (path s) ++ entry line := by
      show (AList.lookup (path s) (d.write (path s) now (entry line))).elim [] File.text = _
      rw [lookup_write, if_pos rfl]
      rfl
    show lines (Folder.textOf _ (path s)) = lines (d.textOf (path s)) ++ _
    rw [htext, lines_append (textOf_whole h _), lines_entry]
  · have hn : nameOf s (n + 1) ≠ path s := nameOf_ne hs hs (.inr (Nat.succ_ne_zero n))
    rw [lookup_write, if_neg hn]

theorem write_others {now : Nat} (hs : validStream s = true) (line : Text) {s' : Text}
    (hs' : validStream s' = true)
    (hne : s' ≠ s) : linesOf (d.write (path s) now (entry line)) s' = linesOf d s' := by
  refine Lib.downFrom_congr fun n _ => linesAt_congr ?_
  have hn : nameOf s' n ≠ path s := nameOf_ne (n := 0) hs hs' (.inl hne)
  rw [lookup_write, if_neg hn]

/-! ## An append -/

/-- Every file is within the segment size, or one line. -/
def Sized (l : LogDir) (d : Folder) : Prop :=
  ∀ name f, d.lookup name = some f → f.len ≤ l.segment ∨ (lines f.text).length = 1

/-- No file is empty. -/
def Filled (d : Folder) : Prop := ∀ name f, d.lookup name = some f → f.text ≠ []

/-- What an append that succeeds does. -/
structure Takes (l : LogDir) (now : Nat) (s line : Text) (d d' : Folder) : Prop where
  ordered : Ordered now d'
  total : d'.total ≤ l.budget
  reads : ∃ ls, ls <:+ linesOf d s ∧ linesOf d' s = ls ++ [entry line]
  others : ∀ {s'}, validStream s' = true → s' ≠ s → linesOf d' s' <:+ linesOf d s'
  sized : Sized l d → Sized l d'
  filled : Filled d → Filled d'
  own : path s ∈ d'

/-- The file a line is written to: a rotation leaves it with room for the line, or empty. -/
theorem rotated (h : Ordered clock d) (hs : validStream s = true) (l : LogDir) (now n : Nat) :
    ∃ d₁, (if 0 < d.lenOf (path s) ∧ l.segment < d.lenOf
      (path s) + n then rotate Faults.none s now d else d) = d₁ ∧
      Shrinks clock d d₁ ∧ (d₁.textOf (path s) = [] ∨
        len (d₁.textOf (path s)) + n ≤ l.segment) := by
  by_cases hfull : 0 < d.lenOf (path s) ∧ l.segment < d.lenOf (path s) + n
  · have hin : path s ∈ d := by
      by_contra hno
      have hzero : d.lenOf (path s) = 0 := by
        unfold Folder.lenOf
        rw [AList.lookup_eq_none.mpr hno]
        rfl
      omega
    obtain ⟨hshrinks, hgone⟩ := rotate_shrinks h hs hin now
    refine ⟨_, if_pos hfull, hshrinks, .inl ?_⟩
    unfold Folder.textOf
    rw [AList.lookup_eq_none.mpr hgone]
    rfl
  · refine ⟨d, if_neg hfull, .refl h, ?_⟩
    rw [lenOf_eq] at hfull
    by_cases hzero : len (d.textOf (path s)) = 0
    · exact .inl (len_nil_iff.mp hzero)
    · right
      omega

/-- An append that fits succeeds, whatever the folder holds. -/
theorem appendLocked_takes (h : Ordered clock d) (hs : validStream s = true) {now : Nat}
    (hnow : clock ≤ now) (listing : Text → Nat) {line : Text} (hn : len (entry line) ≤ l.budget) :
    ∃ d', appendLocked l Faults.none listing now s
    (entry line) d = (d', .ok ()) ∧ Takes l now s line d d' := by
  obtain ⟨d₁, hd₁, hshrinks, hsize⟩ := rotated h hs l now (len (entry line))
  obtain ⟨d₂, hd₂, hroom⟩ := makeRoom_room hshrinks.ordered hs hnow hn listing
  have hout : appendLocked l Faults.none listing now s (entry line) d =
      (d₂.write (path s) now (entry line), .ok ()) := by
    unfold appendLocked
    dsimp only
    rw [if_neg (Nat.not_lt.mpr hn), hd₁, hd₂]
    dsimp only
    rw [if_neg (Nat.not_lt.mpr hroom.fits)]
    rfl
  have hfrom : ∀ {name f}, name ≠ path s →
    AList.lookup name (d₂.write (path s) now (entry line)) = some f →
      ∃ name', d.lookup name' = some f := by
    intro name f hne hf
    rw [lookup_write, if_neg hne] at hf
    obtain ⟨name', hname'⟩ := hroom.others hne hf
    exact hshrinks.within hname'
  refine ⟨_, hout, ⟨write_ordered hroom.ordered hs line, ?_,
    ⟨linesOf d₂ s, ?_, write_reads hroom.ordered hs line⟩,
    fun hs' hne => ?_, fun hsized name f hf => ?_, fun hfilled name f hf => ?_, ?_⟩⟩
  · rw [total_write]
    exact hroom.fits
  · exact (hroom.reads hs).trans (hshrinks.reads hs)
  · rw [write_others hs line hs' hne]
    exact (hroom.reads hs').trans (hshrinks.reads hs')
  · by_cases hne : name = path s
    · rw [lookup_write, if_pos hne] at hf
      obtain rfl := Option.some.inj hf
      have hempty : d₂.textOf (path s) = [] ∨ len (d₂.textOf (path s)) + len
          (entry line) ≤ l.segment := by
        rcases hroom.own with hown | hown
        · rw [hown]
          exact hsize
        · exact .inl hown
      rcases hempty with hempty | hfits
      · right
        show (lines (d₂.textOf (path s) ++ entry line)).length = 1
        rw [hempty, List.nil_append, lines_entry]
        rfl
      · left
        show len (d₂.textOf (path s) ++ entry line) ≤ l.segment
        rw [len_append]
        exact hfits
    · obtain ⟨name', hname'⟩ := hfrom hne hf
      exact hsized name' f hname'
  · by_cases hne : name = path s
    · rw [lookup_write, if_pos hne] at hf
      obtain rfl := Option.some.inj hf
      intro hnil
      have hentry := (List.append_eq_nil_iff.mp hnil).2
      exact List.cons_ne_nil _ _ (List.append_eq_nil_iff.mp hentry).2
    · obtain ⟨name', hname'⟩ := hfrom hne hf
      exact hfilled name' f hname'
  · exact (AList.mem_insert _).mpr (.inl rfl)

/-- The three ways an append ends when no operation fails. -/
inductive Ends (l : LogDir) (d : Folder) (i : Append) : Folder × Except Error Unit → Prop
  | bad (h : validStream i.stream = false) : Ends l d i (d, .error .badStream)
  | tooLong (hs : validStream i.stream = true) (h : l.budget < len (entry i.line)) :
      Ends l d i (d, .error .overBudget)
  | takes {d' : Folder} (hs : validStream i.stream = true)
    (h : Takes l i.now i.stream i.line d d') :
      Ends l d i (d', .ok ())

/-- An append ends in one of the three ways. -/
theorem append_ends {i : Append} (h : Ordered i.now d) (hx : i.faults = Faults.none) :
    Ends l d i (append l d i) := by
  unfold append
  cases hs : validStream i.stream with
  | false => exact .bad hs
  | true =>
    rw [hx]
    show Ends l d i (appendLocked l Faults.none i.listing i.now i.stream (entry i.line) d)
    by_cases hn : len (entry i.line) ≤ l.budget
    · obtain ⟨d', hd', htakes⟩ := appendLocked_takes h hs (Nat.le_refl i.now) i.listing hn
      rw [hd']
      exact .takes hs htakes
    · have hlong : l.budget < len (entry i.line) := Nat.lt_of_not_le hn
      unfold appendLocked
      dsimp only
      rw [if_pos hlong]
      exact .tooLong hs hlong

/-! ## Every run -/

section Runs

variable (l : LogDir)

/-- The folder after a run. -/
abbrev folder (is : List Append) : Folder := (machine l).state is

/-- The lines written to the stream in a run. -/
abbrev writtenBy (s : Text) (is : List Append) : List Text := written s ((machine l).out is)

/-- The stream's file went with a line for another stream, and nothing was written to it
since. -/
def Pruned (s : Text) (is : List Append) : Prop :=
  ∃ pre i post, is = pre ++ i :: post ∧ i.stream ≠ s ∧ path s ∈ folder l pre ∧
    path s ∉ folder l (pre ++ [i]) ∧ writtenBy l s is = writtenBy l s pre

/-- What the log folder keeps. -/
structure Keeps (is : List Append) : Prop where
  ordered : ∀ {now}, (∀ i ∈ is, i.now ≤ now) → Ordered now (folder l is)
  total : Folder.total (folder l is) ≤ l.budget
  sized : Sized l (folder l is)
  filled : Filled (folder l is)
  reads : ∀ {s}, validStream s = true → linesOf (folder l is) s <:+ writtenBy l s is
  newest : ∀ {s}, validStream s = true → path s ∈ folder l is ∨ writtenBy l s is = [] ∨
    Pruned l s is

theorem folder_snoc (is : List Append) (i : Append) :
    folder l (is ++ [i]) = (append l (folder l is) i).1 :=
  (machine l).state_snoc is i

/-- What was written to a stream, after one more append. -/
theorem written_snoc (s : Text) (is : List Append) (i : Append) : writtenBy l s (is ++ [i]) =
    writtenBy l s is ++
      if i.stream = s ∧ (append l (folder l is) i).2.isOk = true then [entry i.line] else [] := by
  unfold writtenBy written
  rw [Lib.Machine.out_snoc, List.filterMap_append]
  congr 1
  show List.filterMap _ [_] = _
  simp only [List.filterMap_cons, List.filterMap_nil]
  split
  next hnone =>
    split at hnone
    · cases hnone
    next hno => rw [if_neg hno]
  next b hsome =>
    split at hsome
    next hyes => rw [if_pos hyes, ← Option.some.inj hsome]
    · cases hsome

/-- A call that writes nothing keeps everything. -/
theorem Keeps.still {is : List Append} (h : Keeps l is) {i : Append}
    (hd : folder l (is ++ [i]) = folder l is)
    (hw : ∀ s, writtenBy l s (is ++ [i]) = writtenBy l s is) : Keeps l (is ++ [i]) where
  ordered := fun {now} hnow => by
    rw [hd]
    exact h.ordered fun j hj => hnow j (List.mem_append_left [i] hj)
  total := by
    rw [hd]
    exact h.total
  sized := by
    rw [hd]
    exact h.sized
  filled := by
    rw [hd]
    exact h.filled
  reads := fun {s} hs => by
    rw [hd, hw s]
    exact h.reads hs
  newest := fun {s} hs => by
    rw [hd, hw s]
    refine (h.newest hs).imp_right (Or.imp_right ?_)
    rintro ⟨pre, j, post, rfl, hne, hin, hout, hsame⟩
    exact ⟨pre, j, post ++ [i], by simp, hne, hin, hout, (hw s).trans hsame⟩

/-- A line is written. -/
theorem Keeps.takes {is : List Append} (h : Keeps l is) {i : Append}
    (hs : validStream i.stream = true)
    (htakes : Takes l i.now i.stream i.line (folder l is) (folder l (is ++ [i])))
    (hw : writtenBy l i.stream (is ++ [i]) = writtenBy l i.stream is ++ [entry i.line])
    (hother : ∀ s, s ≠ i.stream → writtenBy l s (is ++ [i]) = writtenBy l s is) :
    Keeps l (is ++ [i]) where
  ordered := fun {now} hnow => htakes.ordered.later
    (hnow i (List.mem_append_right is List.mem_cons_self))
  total := htakes.total
  sized := htakes.sized h.sized
  filled := htakes.filled h.filled
  reads := fun {s} hvalid => by
    by_cases hsame : s = i.stream
    · subst hsame
      obtain ⟨ls, hls, hreads⟩ := htakes.reads
      rw [hw, hreads]
      obtain ⟨front, hfront⟩ := hls.trans (h.reads hs)
      exact ⟨front, by rw [← hfront, List.append_assoc]⟩
    · rw [hother s hsame]
      exact (htakes.others hvalid hsame).trans (h.reads hvalid)
  newest := fun {s} hvalid => by
    by_cases hsame : s = i.stream
    · subst hsame
      exact .inl htakes.own
    · rw [hother s hsame]
      rcases h.newest hvalid with hin | hnone | ⟨pre, j, post, rfl, hne, hin, hout, hold⟩
      · by_cases hstays : path s ∈ folder l (is ++ [i])
        · exact .inl hstays
        · exact .inr (.inr ⟨is, i, [], rfl, fun he => hsame he.symm, hin, hstays, hother s hsame⟩)
      · exact .inr (.inl hnone)
      · exact .inr
          (.inr ⟨pre, j, post ++ [i], by simp, hne, hin, hout, (hother s hsame).trans hold⟩)

theorem keeps_nil : Keeps l [] := by
  have hnone : ∀ {name f}, (folder l []).lookup name ≠ some f := by
    intro name f hf
    cases hf
  refine ⟨fun _ => ⟨fun hf => absurd hf hnone, fun hf => absurd hf hnone,
    fun _ _ hf => absurd hf hnone,
    fun hf => absurd hf hnone⟩, Nat.zero_le _, fun _ _ hf => absurd hf hnone,
    fun _ _ hf => absurd hf hnone,
    fun {s} _ => ?_, fun _ => .inr (.inl rfl)⟩
  rw [linesOf_empty fun name => .inl rfl]
  exact List.nil_suffix

/-- **What an append keeps, a run keeps.** -/
theorem run_keeps {is : List Append} (hx : ∀ i ∈ is, i.faults = Faults.none)
    (hclock : (is.map Append.now).Pairwise (· ≤ ·)) : Keeps l is := by
  induction is using List.reverseRecOn with
  | nil => exact keeps_nil l
  | append_singleton is i ih =>
    rw [List.map_append, List.pairwise_append] at hclock
    have h := ih (fun j hj => hx j (List.mem_append_left [i] hj)) hclock.1
    have hbefore : ∀ j ∈ is, j.now ≤ i.now := fun j hj =>
      hclock.2.2 j.now (List.mem_map_of_mem hj) i.now List.mem_cons_self
    have hends := append_ends (l := l) (h.ordered hbefore)
      (hx i (List.mem_append_right is List.mem_cons_self))
    have hsnoc := folder_snoc l is i
    have hwritten := fun s => written_snoc l s is i
    generalize append l (folder l is) i = p at hends hsnoc hwritten
    cases hends with
    | bad =>
      exact h.still l hsnoc fun s => by
        rw [hwritten, if_neg (fun he => by cases he.2), List.append_nil]
    | tooLong =>
      exact h.still l hsnoc fun s => by
        rw [hwritten, if_neg (fun he => by cases he.2), List.append_nil]
    | takes hs htakes =>
      refine h.takes l hs ?_ ?_ fun s hne => ?_
      · rw [hsnoc]
        exact htakes
      · rw [hwritten, if_pos ⟨rfl, rfl⟩]
      · rw [hwritten, if_neg fun he => hne he.1.symm, List.append_nil]

/-! ## What the log keeps -/

/-- The lines of a stream's files are read in the order they were written. -/
theorem lines_readStream {clock : Nat} {d : Folder} (h : Ordered clock d) {s : Text}
    (hs : validStream s = true) :
    lines (readStream s d) = linesOf d s := by
  have hpart : ∀ ns : List Nat, (∀ n ∈ ns, 0 < n) → ∀ rest,
      lines (ns.flatMap (fun n => d.textOf (segmentPath s n)) ++ rest) = ns.flatMap
        (linesAt d s) ++ lines rest := by
    intro ns hpos rest
    induction ns with
    | nil => rfl
    | cons n ns ih =>
      have hname := nameOf_pos s (hpos n List.mem_cons_self)
      rw [List.flatMap_cons, List.flatMap_cons, List.append_assoc, List.append_assoc,
        lines_append (textOf_whole h _), ih fun m hm => hpos m (List.mem_cons_of_mem n hm), ← hname]
      rfl
  rw [← lines_numbers h hs]
  exact hpart _ (fun n hn => ((mem_numbers h hs).mp hn).1) _

/-- **The log folder**, after a run of appends. -/
structure LogKept (is : List Append) : Prop where
  /-- The folder is within its budget. -/
  budget : Folder.total (folder l is) ≤ l.budget
  /-- A segment is within its size unless it is one line. -/
  segments : ∀ name f, (folder l is).lookup name = some f →
    f.len ≤ l.segment ∨ (lines f.text).length = 1
  /-- A line is refused only for its own length, and nothing changes. -/
  refused : ∀ pre i post, is = pre ++ i :: post →
    (append l (folder l pre) i).2 = .error .overBudget →
    l.budget < len (entry i.line) ∧ folder l (pre ++ [i]) = folder l pre
  /-- Every other line of a valid stream is written. -/
  accepted : ∀ pre i post, is = pre ++ i :: post → validStream i.stream = true →
    len (entry i.line) ≤ l.budget → (append l (folder l pre) i).2 = .ok ()
  /-- A stream's files hold the end of what was written to it, in order. -/
  reads : ∀ s, validStream s = true → lines (readStream s (folder l is)) <:+ writtenBy l s is
  /-- The last line written is there, unless the file went for another stream's line. -/
  newest : ∀ s, validStream s = true → writtenBy l s is ≠ [] →
    (lines (readStream s (folder l is))).getLast? = (writtenBy l s is).getLast? ∨ Pruned l s is

/-- A part of a run in which nothing fails and the clock does not go back. -/
theorem run_prefix {pre post : List Append} {i : Append}
    (hx : ∀ j ∈ pre ++ i :: post, j.faults = Faults.none)
    (hclock : ((pre ++ i :: post).map Append.now).Pairwise (· ≤ ·)) :
    Ends l (folder l pre) i (append l (folder l pre) i) := by
  rw [List.map_append, List.pairwise_append] at hclock
  have h := run_keeps l (fun j hj => hx j (List.mem_append_left _ hj)) hclock.1
  refine append_ends (h.ordered fun j hj => ?_)
    (hx i (List.mem_append_right pre List.mem_cons_self))
  exact hclock.2.2 j.now (List.mem_map_of_mem hj) i.now List.mem_cons_self

/-- **The budget and the order of the log**, when no operation fails and the clock does not
go back. -/
theorem log_kept {is : List Append} (hx : ∀ i ∈ is, i.faults = Faults.none)
    (hclock : (is.map Append.now).Pairwise (· ≤ ·)) : LogKept l is := by
  have h := run_keeps l hx hclock
  obtain ⟨now, hnow⟩ : ∃ now, ∀ i ∈ is, i.now ≤ now := by
    clear h hx hclock
    induction is with
    | nil => exact ⟨0, fun i hi => absurd hi List.not_mem_nil⟩
    | cons j is ih =>
      obtain ⟨now, hnow⟩ := ih
      refine ⟨max j.now now, fun i hi => ?_⟩
      rcases List.mem_cons.mp hi with rfl | hi
      · exact Nat.le_max_left _ _
      · exact (hnow i hi).trans (Nat.le_max_right _ _)
  have hordered := h.ordered hnow
  refine ⟨h.total, h.sized, fun pre i post hcut hout => ?_, fun pre i post hcut hs hn => ?_,
    fun s hs => ?_,
    fun s hs hne => ?_⟩
  · subst hcut
    have hends := run_prefix l hx hclock
    have hsnoc := folder_snoc l pre i
    generalize append l (folder l pre) i = p at hends hsnoc hout
    cases hends with
    | bad => cases hout
    | tooLong hs hlong => exact ⟨hlong, hsnoc⟩
    | takes hs htakes => cases hout
  · subst hcut
    have hends := run_prefix l hx hclock
    generalize append l (folder l pre) i = p at hends
    cases hends with
    | bad hbad =>
      rw [hs] at hbad
      cases hbad
    | tooLong _ hlong => exact absurd hn (Nat.not_le.mpr hlong)
    | takes _ htakes => rfl
  · rw [lines_readStream hordered hs]
    exact h.reads hs
  · rcases h.newest hs with hin | hnone | hpruned
    · left
      rw [lines_readStream hordered hs]
      obtain ⟨front, hfront⟩ := h.reads hs
      -- The stream's file is there, and it is not empty.
      have hfilled : linesOf (folder l is) s ≠ [] := by
        obtain ⟨f, hf⟩ := Option.isSome_iff_exists.mp (AList.lookup_isSome.mpr hin)
        have htext := h.filled _ f hf
        rw [← lines_numbers hordered hs]
        intro hnil
        have hown : lines f.text = [] := by
          have hzero := (List.append_eq_nil_iff.mp hnil).2
          unfold linesAt Folder.textOf at hzero
          rw [show (folder l is).lookup (nameOf s 0) = some f from hf] at hzero
          exact hzero
        have hflat := lines_flatten f.text
        rw [hown] at hflat
        exact htext hflat.symm
      rw [← hfront, List.getLast?_append_of_ne_nil _ hfilled]
    · exact absurd hnone hne
    · exact .inr hpruned

end Runs

/-- Two streams; the last line takes the place of the oldest. -/
def twoStreams : List Append :=
  [⟨['a'], ['x', 'x'], 1, fun _ => 0, Faults.none⟩, ⟨['a'], ['y'], 2, fun _ => 0, Faults.none⟩,
    ⟨['b'], ['z'], 2, fun _ => 0, Faults.none⟩, ⟨['a'], ['w', 'w'], 3, fun _ => 0, Faults.none⟩]

theorem log_kept_twoStreams : LogKept (LogDir.withLimits 4 8) twoStreams := by
  refine log_kept _ ?_ (by decide)
  intro i hi
  simp only [twoStreams, List.mem_cons, List.not_mem_nil, or_false] at hi
  rcases hi with rfl | rfl | rfl | rfl
  · rfl
  · rfl
  · rfl
  · rfl

end Sonara.Log
