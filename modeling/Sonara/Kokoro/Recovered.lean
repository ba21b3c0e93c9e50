import Mathlib.Data.List.Count
import Sonara.Kokoro.Claimed

/-!
# A few fetches are enough

When calls succeed and the server serves the pinned bytes (`Serves`), a fetch fails only at a
`.part` with other bytes, and removes it (`download_serves`). No step leaves a new one, so a fetch
reaches `Ready` or there is a `.part` less, and one fetch more than there are files is always
enough.
-/

namespace Sonara.Kokoro

open Lib (Stop Effects Ends attempt because)
open Io

variable {o : Outside} {m : Manager} {w : World} {f : ModelFile}

/-- Names that stand in nobody's way, and no empty file. -/
structure Apart (files : List ModelFile) : Prop where
  parts : ∀ f ∈ files, ∀ g ∈ files, g.part ≠ f.name
  marker : ∀ f ∈ files, f.part ≠ MARKER ∧ f.part ≠ MARKER_TMP ∧ f.name ≠ MARKER ∧
    f.name ≠ MARKER_TMP
  size : ∀ f ∈ files, 0 < f.size

/-- The whole file, or what is behind the length asked for. -/
structure Reply (content : List UInt8) (pos : Nat) (r : Response) : Prop where
  whole : r.cut = none
  reads : ∀ chunk ∈ r.reads, chunk ≠ []
  bytes : r.status = 200 ∧ r.reads.flatten = content ∨
    0 < pos ∧ r.status = 206 ∧ rangeStart r.contentRange = some pos ∧
      r.reads.flatten = content.drop pos

/-- Calls succeed, and the server serves the pinned bytes, with or without ranges. -/
structure Serves (o : Outside) (files : List ModelFile) (content : ModelFile → List UInt8) :
    Prop where
  ok : ∀ n c, o.answer n c = .ok
  hash : ∀ f ∈ files, o.sha256 (content f) = f.pin
  size : ∀ f ∈ files, (content f).length = f.size
  reply : ∀ n, ∀ f ∈ files, ∀ pos < f.size, ∃ r, o.reply n f.url pos = .ok r ∧ Reply
    (content f) pos r

/-! ## Calls that succeed -/

section

variable {α : Type} {E : Stop String → World → Prop}

theorem ask_serves {Q : α → World → Prop} (hok : ∀ n c, o.answer n c = .ok) (c : Call)
    {act : Nat → Folder → Option (α × Folder)} {torn : Nat → Nat → Folder → Folder}
    (hsome : ∀ time a d, act time w.folder = some (a, d) → Q a ((w.tick o).withFolder d))
    (hnone : ∀ time, act time w.folder = none → E (.failed o.missing) (w.tick o)) :
    Ends (ask o c act torn) w Q E := by
  unfold Ends Io.ask Io.atomic
  dsimp only
  rw [tick_folder, hok]
  dsimp only
  cases h : act (o.clock w.calls) w.folder with
  | none => exact hnone _ h
  | some r => exact hsome _ r.1 r.2 h

theorem look_serves {Q : α → World → Prop} (hok : ∀ n c, o.answer n c = .ok) (c : Call)
    {act : Folder → Option α} (hsome : ∀ a, act w.folder = some a → Q a (w.tick o))
    (hnone : act w.folder = none → E (.failed o.missing) (w.tick o)) :
    Ends (look o c act) w Q E := by
  refine ask_serves hok c (fun time a d h => ?_) fun time h => hnone (Option.map_eq_none_iff.mp h)
  obtain ⟨a', ha, heq⟩ := Option.map_eq_some_iff.mp h
  obtain ⟨rfl, rfl⟩ := Prod.mk.inj heq
  have hself : (w.tick o).withFolder w.folder = w.tick o := by rw [← tick_folder (o := o) w]; rfl
  rw [hself]
  exact hsome a' ha

theorem change_serves {Q : Unit → World → Prop} (hok : ∀ n c, o.answer n c = .ok) (c : Call)
    {act : Nat → Folder → Option Folder}
    (hsome : ∀ time d, act time w.folder = some d → Q () ((w.tick o).withFolder d))
    (hnone : ∀ time, act time w.folder = none → E (.failed o.missing) (w.tick o)) :
    Ends (change o c act) w Q E := by
  refine ask_serves hok c (fun time a d h => ?_) fun time h =>
    hnone time (Option.map_eq_none_iff.mp h)
  obtain ⟨d', hd, heq⟩ := Option.map_eq_some_iff.mp h
  obtain ⟨-, rfl⟩ := Prod.mk.inj heq
  exact hsome time d' hd

end

/-! ## The `.part` while it is written -/

/-- The `.part` holds `bytes`, and nothing else changed. -/
structure Holds (f : ModelFile) (d : Folder) (bytes : List UInt8) (w : World) : Prop where
  part : ∃ data, w.folder f.part = some data ∧ data.bytes = bytes
  others : ∀ p, p ≠ f.part → w.folder p = d p

theorem Holds.tick {d : Folder} {bytes : List UInt8} (h : Holds f d bytes w) :
    Holds f d bytes (w.tick o) := by
  obtain ⟨⟨data, hdata, hbytes⟩, hothers⟩ := h
  refine ⟨⟨data, ?_, hbytes⟩, fun p hp => ?_⟩
  · rw [tick_folder]
    exact hdata
  · rw [tick_folder]
    exact hothers p hp

/-- The `.part` is written again. -/
theorem Holds.put {d : Folder} {w : World} (h : ∀ p, p ≠ f.part → w.folder p = d p)
    (data : FileData) :
    Holds f d data.bytes ((w.tick o).withFolder (Function.update w.folder f.part (some data))) := by
  refine ⟨⟨data, Function.update_self .., rfl⟩, fun p hp => ?_⟩
  exact (Function.update_of_ne hp ..).trans (h p hp)

theorem writeAt_end (bytes chunk : List UInt8) :
    writeAt bytes bytes.length chunk = bytes ++ chunk := by
  unfold writeAt
  rw [List.take_length, List.drop_eq_nil_of_le (Nat.le_add_right _ _), List.append_nil]

/-- With calls that succeed a copy writes every chunk at the end of the part. -/
theorem copy_serves (hok : ∀ n c, o.answer n c = .ok) (before total : Nat)
    {reads : List (List UInt8)}
    (hreads : ∀ chunk ∈ reads, chunk ≠ []) {d : Folder} {bytes : List UInt8} (h : Holds f d bytes w)
    (hfits : bytes.length + reads.flatten.length ≤ f.size) :
    Ends (m.copy o f before total bytes.length reads none) w
      (fun pos t => pos = bytes.length + reads.flatten.length ∧ Holds f d
        (bytes ++ reads.flatten) t)
      fun _ _ => False := by
  induction reads generalizing w bytes with
  | nil =>
    unfold Manager.copy
    refine Ends.pure ⟨rfl, ?_⟩
    rw [List.flatten_nil, List.append_nil]
    exact h
  | cons chunk reads ih =>
    rw [List.flatten_cons, List.length_append] at hfits
    unfold Manager.copy
    rw [if_neg (hreads chunk List.mem_cons_self), if_neg (by omega)]
    refine Ends.seq (Q := fun _ t => Holds f d (bytes ++ chunk) t)
      (Ends.because_same (ask_serves hok _ (fun time a d' hd => ?_) fun time hnone => ?_)) ?_
    · obtain ⟨d'', hd'', heq⟩ := Option.map_eq_some_iff.mp hd
      obtain ⟨data, hdata, rfl⟩ := Option.map_eq_some_iff.mp hd''
      obtain rfl : _ = d' := congrArg Prod.snd heq
      obtain ⟨data', hdata', rfl⟩ := h.part
      obtain rfl : data' = data := Option.some.inj (hdata'.symm.trans hdata)
      have hput := Holds.put (o := o) h.others
        { bytes := writeAt data'.bytes data'.bytes.length chunk, modified := time }
      rw [← writeAt_end]
      exact hput
    · obtain ⟨data, hdata, -⟩ := h.part
      unfold rewrite at hnone
      rw [hdata] at hnone
      cases hnone
    · rintro - t h
      have hlen : (bytes ++ chunk).length = bytes.length + chunk.length := List.length_append
      have hrest : ∀ t, Holds f d (bytes ++ chunk) t → Ends
          (m.copy o f before total (bytes.length + chunk.length) reads none) t
          (fun pos t => pos = bytes.length + (chunk :: reads).flatten.length ∧
            Holds f d (bytes ++ (chunk :: reads).flatten) t) fun _ _ => False := by
        intro t h
        rw [← hlen]
        refine (ih (fun c hc => hreads c (List.mem_cons_of_mem _ hc)) h (by omega)).imp
          (fun pos t hq => ?_) fun _ _ h => h
        rw [List.flatten_cons, ← List.append_assoc, List.length_append, ← Nat.add_assoc, ← hlen]
        exact hq
      refine Ends.seq (Q := fun _ t => Holds f d (bytes ++ chunk) t) h ?_
      rintro tell u h
      cases tell with
      | false => exact hrest u h
      | true =>
        refine Ends.seq (Q := fun _ t => Holds f d (bytes ++ chunk) t)
          (setPhase_ends _ ⟨h.tick.part, h.tick.others⟩) ?_
        exact fun _ v h => hrest v h

/-- With calls that succeed a whole response completes the part. -/
theorem receive_serves (hok : ∀ n c, o.answer n c = .ok) (before total : Nat) {r : Response}
    (hcut : r.cut = none)
    (hreads : ∀ chunk ∈ r.reads, chunk ≠ []) {d : Folder} {bytes : List UInt8}
    (h : Holds f d bytes w) (hfits : bytes.length + r.reads.flatten.length = f.size) :
    Ends (m.receive o f before total bytes.length r) w
      (fun a t => a = .done ∧ Holds f d (bytes ++ r.reads.flatten) t) fun _ _ => False := by
  unfold Manager.receive
  refine Ends.seq (Q := fun _ t => Holds f d bytes t)
    (look_serves hok _ (fun _ _ => h.tick) nofun) ?_
  rintro - t h
  rw [hcut]
  refine Ends.seq (copy_serves hok before total hreads h (Nat.le_of_eq hfits)) ?_
  rintro pos u ⟨hpos, h⟩
  refine Ends.seq (Q := fun _ t => Holds f d (bytes ++ r.reads.flatten) t)
    (look_serves hok _ (fun _ _ => h.tick) nofun) ?_
  rintro - v h
  rw [if_neg (by omega)]
  exact Ends.pure ⟨rfl, h⟩

variable {files : List ModelFile} {content : ModelFile → List UInt8}

/-- **A request leaves a whole `.part`**, and it is the file when there was none. -/
theorem request_serves (S : Serves o files content) (hf : f ∈ files) (before total : Nat)
    {pos : Nat} (hpos : (partBytes f w.folder).length = pos) (hless : pos < f.size) :
    Ends (m.request o f pos before total) w
      (fun a t => a = .done ∧ ∃ bytes, Holds f w.folder bytes t ∧
        (w.folder f.part = none → bytes = content f))
      fun _ _ => False := by
  have hsize := S.size f hf
  unfold Manager.request
  refine Ends.seq (Q := fun r t => Reply (content f) pos r ∧ t.folder = w.folder)
    (Ends.because_same ?_) ?_
  · obtain ⟨r, hr, hreply⟩ := S.reply w.calls f hf pos hless
    refine request_ends (fun r' hr' => ?_) fun why hwhy => nomatch hr.symm.trans hwhy
    obtain rfl := Except.ok.inj (hr.symm.trans hr')
    exact ⟨hreply, tick_folder w⟩
  rintro r t ⟨hreply, ht⟩
  refine Ends.seq (Q := fun _ u => Holds f w.folder (partBytes f w.folder) u)
    (Ends.because_same (change_serves S.ok _ (fun time d hd => ?_) nofun)) ?_
  · obtain rfl := Option.some.inj hd
    have hput := Holds.put (o := o) (f := f) (d := w.folder) (w := t) (fun p _ => by rw [ht])
      ((t.folder f.part).getD { bytes := [], modified := time })
    have hbytes : ((t.folder f.part).getD { bytes := [], modified := time }).bytes =
        partBytes f w.folder := by
      rw [ht]
      unfold partBytes
      cases w.folder f.part <;> rfl
    rw [← hbytes]
    exact hput
  rintro - u h
  rcases hreply.bytes with ⟨hstatus, hbytes⟩ | ⟨hrange, hstatus, hstart, hbytes⟩
  · rw [hstatus, if_neg (by decide), if_pos rfl]
    refine Ends.seq (Q := fun _ v => Holds f w.folder [] v)
      (change_serves S.ok _ (fun time d hd => ?_) fun time hnone => ?_) ?_
    · obtain ⟨data, -, rfl⟩ := Option.map_eq_some_iff.mp hd
      exact Holds.put h.others { bytes := [], modified := time }
    · obtain ⟨data, hdata, -⟩ := h.part
      rw [hdata] at hnone
      cases hnone
    · rintro - v h
      refine (receive_serves S.ok before total hreply.whole hreply.reads h ?_).imp
        (fun a x hq => ?_) fun _ _ h => h
      · rw [hbytes, hsize]
        exact Nat.zero_add _
      · exact ⟨hq.1, _, hq.2, fun _ => hbytes⟩
  · rw [hstatus, if_pos rfl, hstart, if_pos rfl]
    subst hpos
    refine (receive_serves S.ok before total hreply.whole hreply.reads h ?_).imp (fun a x hq => ?_)
      fun _ _ h => h
    · rw [hbytes, List.length_drop, hsize]
      omega
    · refine ⟨hq.1, _, hq.2, fun hnone => ?_⟩
      unfold partBytes at hrange
      rw [hnone] at hrange
      cases hrange

/-- **A whole `.part` is renamed into place, or it has other bytes and is removed.** -/
theorem place_serves (hok : ∀ n c, o.answer n c = .ok) {bytes : List UInt8} {d : Folder}
    (h : Holds f d bytes w) (hname : f.part ≠ f.name) :
    Ends (m.place o f) w
      (fun _ t => t.folder f.part = none ∧ t.folder f.name ≠ none ∧ ∀ p, p ≠ f.part → p ≠ f.name →
        t.folder p = d p)
      fun e t => (∃ why, e = .failed why) ∧ o.sha256 bytes ≠ f.pin ∧ t.folder f.part = none ∧
        ∀ p, p ≠ f.part → p ≠ f.name → t.folder p = d p := by
  unfold Manager.place
  refine Ends.seq (Q := fun got t => got = o.sha256 bytes ∧ Holds f d bytes t) (Ends.because
    (look_serves hok _ (fun got hgot => ?_) fun hnone => ?_)) ?_
  · obtain ⟨data, hdata, rfl⟩ := h.part
    rw [hdata] at hgot
    exact ⟨(Option.some.inj hgot).symm, h.tick⟩
  · obtain ⟨data, hdata, -⟩ := h.part
    rw [hdata] at hnone
    cases hnone
  rintro got t ⟨rfl, h⟩
  obtain ⟨data, hdata, -⟩ := h.part
  split
  next hother =>
    refine Ends.seq (Q := fun _ u => u.folder f.part = none ∧ ∀ p, p ≠ f.part → u.folder p = d p)
      (Ends.attempt (change_serves hok _ (fun time d' hd => ?_) fun time hnone => ?_)) ?_
    · obtain ⟨-, -, rfl⟩ := Option.map_eq_some_iff.mp hd
      exact ⟨Function.update_self .., fun p hp => (Function.update_of_ne hp ..).trans
        (h.others p hp)⟩
    · rw [hdata] at hnone
      cases hnone
    · rintro - u ⟨hgone, hothers⟩
      exact Ends.throw ⟨⟨_, rfl⟩, hother, hgone, fun p hp _ => hothers p hp⟩
  next =>
    refine Ends.seq (Q := fun _ t => t.folder f.part = none ∧ t.folder f.name ≠ none ∧
        ∀ p, p ≠ f.part → p ≠ f.name → t.folder p = d p)
      (Ends.because (change_serves hok _ (fun time d' hd => ?_) fun time hnone => ?_)) ?_
    · obtain ⟨data', -, rfl⟩ := Option.map_eq_some_iff.mp hd
      refine ⟨?_, ?_, fun p hp hp' => ?_⟩
      · exact (Function.update_of_ne hname ..).trans (Function.update_self ..)
      · show Function.update (Function.update t.folder f.part none) f.name
          (some data') f.name ≠ none
        rw [Function.update_self]
        exact nofun
      · exact (Function.update_of_ne hp' ..).trans
          ((Function.update_of_ne hp ..).trans (h.others p hp))
    · rw [hdata] at hnone
      cases hnone
    · exact fun _ u hu => note_ends rfl hu

/-- With calls that succeed the part's length is that of its bytes. -/
theorem partLength_serves (hok : ∀ n c, o.answer n c = .ok) :
    Ends (Manager.partLength o f) w
    (fun pos t => pos = (partBytes f w.folder).length ∧ t.folder = w.folder)
      fun _ _ => False := by
  unfold Manager.partLength
  refine Ends.seq (Q := fun r t => t.folder = w.folder ∧
      (r.toOption.map Prod.fst).getD 0 = (partBytes f w.folder).length)
    (Ends.attempt (look_serves hok _ (fun p hp => ?_) fun hnone => ?_)) ?_
  · obtain ⟨data, hdata, rfl⟩ := Option.map_eq_some_iff.mp hp
    refine ⟨tick_folder w, ?_⟩
    unfold partBytes
    rw [hdata]
    rfl
  · refine ⟨tick_folder w, ?_⟩
    unfold partBytes
    rw [Option.map_eq_none_iff.mp hnone]
    rfl
  rintro (why | p) t ⟨hfolder, h⟩
  · exact Ends.bind ⟨h, hfolder⟩
  · exact Ends.pure ⟨h, hfolder⟩

/-- Away from the two names of `f` the folder is `d`, and there is no `.part`. -/
structure Cleared (f : ModelFile) (d : Folder) (w : World) : Prop where
  part : w.folder f.part = none
  others : ∀ p, p ≠ f.part → p ≠ f.name → w.folder p = d p

/-- A `.part` that is not too long is made whole, and put in place or removed. -/
theorem round_serves (S : Serves o files content) (hf : f ∈ files) (A : Apart files)
    (before total rounds : Nat) (restarted : Bool) (hle : (partBytes f w.folder).length ≤ f.size) :
    Ends (m.download o f before total restarted (rounds + 1)) w
      (fun _ t => Cleared f w.folder t ∧ t.folder f.name ≠ none)
      fun e t => (∃ why, e = .failed why) ∧ w.folder f.part ≠ none ∧ Cleared f w.folder t := by
  have hplace {bytes : List UInt8} {t : World} (h : Holds f w.folder bytes t)
      (hnew : w.folder f.part = none → bytes = content f) :
      Ends (m.place o f) t (fun _ t => Cleared f w.folder t ∧ t.folder f.name ≠ none)
        fun e t => (∃ why, e = .failed why) ∧ w.folder f.part ≠ none ∧ Cleared f w.folder t := by
    refine (place_serves S.ok h (A.parts f hf f hf)).imp (fun _ t hq => ⟨⟨hq.1, hq.2.2⟩, hq.2.1⟩)
      fun e t he => ?_
    obtain ⟨hwhy, hother, hgone, hothers⟩ := he
    exact ⟨hwhy, fun hnone => hother (hnew hnone ▸ S.hash f hf), hgone, hothers⟩
  unfold Manager.download
  refine Ends.seq ((partLength_serves S.ok).imp (fun _ _ h => h) fun _ _ h => h.elim) ?_
  rintro pos t ⟨rfl, hfolder⟩
  rw [if_neg (Nat.not_lt.mpr hle)]
  refine Ends.seq (Q := fun _ u => u.folder = w.folder)
    (setPhase_ends _ ((tick_folder t).trans hfolder)) ?_
  rintro - u hu
  split
  next hless =>
    refine Ends.seq ((request_serves (m := m) S hf before total (w := u) (by rw [hu]) hless).imp
      (fun _ _ h => h)
      fun _ _ h => h.elim) ?_
    rintro a v ⟨rfl, bytes, h, hnew⟩
    rw [hu] at h hnew
    exact hplace h hnew
  next hnot =>
    have hpos : 0 < (partBytes f w.folder).length := by
      have := A.size f hf
      omega
    obtain ⟨data, hdata⟩ : ∃ data, w.folder f.part = some data := by
      cases hpart : w.folder f.part with
      | none =>
        unfold partBytes at hpos
        rw [hpart] at hpos
        cases hpos
      | some data => exact ⟨data, rfl⟩
    exact hplace ⟨⟨data, hu ▸ hdata, rfl⟩, fun p _ => by rw [hu]⟩ fun hnone =>
      absurd (hdata.symm.trans hnone) (Option.some_ne_none _)

/-- **A download fails only at a `.part` with other bytes, and removes it.** -/
theorem download_serves (S : Serves o files content) (hf : f ∈ files) (A : Apart files)
    (before total rounds : Nat) (restarted : Bool) :
    Ends (m.download o f before total restarted (rounds + 2)) w
      (fun _ t => Cleared f w.folder t ∧ t.folder f.name ≠ none)
      fun e t => (∃ why, e = .failed why) ∧ w.folder f.part ≠ none ∧ Cleared f w.folder t := by
  by_cases hle : (partBytes f w.folder).length ≤ f.size
  · exact round_serves S hf A before total (rounds + 1) restarted hle
  · obtain ⟨data, hdata⟩ : ∃ data, w.folder f.part = some data := by
      cases hpart : w.folder f.part with
      | none =>
        unfold partBytes at hle
        rw [hpart] at hle
        exact absurd (Nat.zero_le _) hle
      | some data => exact ⟨data, rfl⟩
    have hwas : w.folder f.part ≠ none := by
      rw [hdata]
      exact nofun
    unfold Manager.download
    refine Ends.seq ((partLength_serves S.ok).imp (fun _ _ h => h) fun _ _ h => h.elim) ?_
    rintro pos t ⟨rfl, hfolder⟩
    rw [if_pos (Nat.lt_of_not_le hle)]
    -- It is removed, and the next round finds none.
    refine Ends.seq (Q := fun _ u => u.folder f.part = none ∧ ∀ p, p ≠ f.part →
      u.folder p = w.folder p)
      (Ends.attempt (change_serves S.ok _ (fun time d hd => ?_) fun time hnone => ?_)) ?_
    · obtain ⟨-, -, rfl⟩ := Option.map_eq_some_iff.mp hd
      refine ⟨Function.update_self .., fun p hp => (Function.update_of_ne hp ..).trans ?_⟩
      rw [hfolder]
    · rw [hfolder, hdata] at hnone
      cases hnone
    rintro - u ⟨hgone, hothers⟩
    have hnone : (partBytes f u.folder).length ≤ f.size := by
      unfold partBytes
      rw [hgone]
      exact Nat.zero_le _
    have hcleared {v : World} (h : Cleared f u.folder v) : Cleared f w.folder v :=
      ⟨h.part, fun p hp hp' => (h.others p hp hp').trans (hothers p hp)⟩
    exact (round_serves S hf A before total rounds restarted hnone).imp
      (fun _ _ hq => ⟨hcleared hq.1, hq.2⟩)
      fun _ _ he => absurd hgone he.2.1

/-! ## A whole fetch -/

/-- Nothing changed but at these names. -/
def Away (names : List String) (d : Folder) (w : World) : Prop := ∀ p, p ∉ names → w.folder p = d p

/-- With calls that succeed only the marker files change. -/
theorem remember_serves (hok : ∀ n c, o.answer n c = .ok) (v : Verified)
    (hname : w.folder f.name ≠ none) :
    Ends (Manager.remember o f v) w (fun _ t => Away [MARKER, MARKER_TMP] w.folder t) fun _ _ =>
    False := by
  unfold Manager.remember
  refine Ends.seq (Q := fun _ t => t.folder = w.folder)
    (look_serves hok _ (fun _ _ => tick_folder w) fun hnone =>
      hname (Option.map_eq_none_iff.mp hnone)) ?_
  rintro p t ht
  refine Ends.seq (Q := fun _ u => u.folder = w.folder) (note_ends rfl ht) ?_
  rintro - u hu
  refine Ends.seq (Q := fun _ t => Away [MARKER, MARKER_TMP] w.folder t) ?_ fun _ _ h => Ends.pure h
  unfold Manager.writeVerified
  split
  · exact Ends.pure fun p _ => by rw [hu]
  next bytes _ =>
    have hwrite : Ends (write o MARKER_TMP bytes) u (fun _ => Away [MARKER, MARKER_TMP] w.folder)
        fun _ _ => False := by
      unfold write
      refine ask_serves hok _ (fun time a d hd => ?_) nofun
      obtain ⟨-, rfl⟩ := Prod.mk.inj (Option.some.inj hd)
      intro p hp
      rw [← hu]
      exact Function.update_of_ne (List.ne_of_not_mem_cons (List.not_mem_of_not_mem_cons hp)) ..
    refine Ends.seq (Q := fun _ => Away [MARKER, MARKER_TMP] w.folder)
      (Ends.attempt (hwrite.imp (fun _ _ h => h)
      fun _ _ h => h.elim)) ?_
    rintro r x hx
    have hrename : Ends (rename o MARKER_TMP MARKER) x (fun _ => Away [MARKER, MARKER_TMP] w.folder)
        fun e => fun t => e ≠ .spins ∧ e ≠ .crashed ∧ Away [MARKER, MARKER_TMP] w.folder t := by
      refine change_serves hok _ (fun time d hd => ?_) fun time hnone =>
        ⟨nofun, nofun, fun p hp => ?_⟩
      · obtain ⟨data, -, rfl⟩ := Option.map_eq_some_iff.mp hd
        intro p hp
        refine ((Function.update_of_ne (List.ne_of_not_mem_cons hp) ..).trans
          (Function.update_of_ne (List.ne_of_not_mem_cons (List.not_mem_of_not_mem_cons hp))
            ..)).trans (hx p hp)
      · rw [tick_folder]
        exact hx p hp
    cases r with
    | error why => exact Ends.pure hx
    | ok _ =>
      refine Ends.seq (Q := fun _ => Away [MARKER, MARKER_TMP] w.folder)
        (Ends.attempt (hrename.imp (fun _ _ h => h)
        fun e t h => ?_)) fun _ _ h => Ends.pure h
      cases e with
      | failed why => exact h.2.2
      | crashed => exact absurd rfl h.2.1
      | spins => exact absurd rfl h.1

theorem verified_serves (hok : ∀ n c, o.answer n c = .ok) (v : Verified) :
    Ends (Manager.verified o f v) w (fun _ t => t.folder = w.folder) fun _ _ => False := by
  unfold Manager.verified
  refine Ends.seq (Q := fun _ t => t.folder = w.folder)
    (Ends.attempt (look_serves hok _ (fun _ _ => tick_folder w) fun _ => tick_folder w)) ?_
  rintro (_ | _) t ht
  · exact Ends.pure ht
  · exact Ends.pure ht

theorem isFile_serves (hok : ∀ n c, o.answer n c = .ok) (name : String) :
    Ends (isFile o name) w (fun there t => t.folder = w.folder ∧
      (there = true → w.folder name ≠ none))
      fun _ _ => False := by
  unfold isFile
  refine Ends.seq (Q := fun r t => t.folder = w.folder ∧ ∀ p, r = .ok p → w.folder name ≠ none)
    (Ends.attempt (look_serves hok _ (fun p hp => ⟨tick_folder w, fun _ _ hnone => ?_⟩) fun _ =>
      ⟨tick_folder w, nofun⟩)) ?_
  · rw [hnone] at hp
    cases hp
  rintro (_ | p) t ⟨ht, h⟩
  · exact Ends.pure ⟨ht, nofun⟩
  · exact Ends.pure ⟨ht, fun _ => h p rfl⟩

/-- What is in place is kept or removed. -/
theorem check_serves (hok : ∀ n c, o.answer n c = .ok) (v : Verified) :
    Ends (m.check o f v) w (fun _ t => Away [f.name, MARKER, MARKER_TMP] w.folder t) fun _ _ =>
    False := by
  unfold Manager.check
  refine Ends.seq (verified_serves hok v) ?_
  rintro (_ | _) t ht
  · refine Ends.seq (isFile_serves hok f.name) ?_
    rintro (_ | _) u ⟨hu, hthere⟩
    · exact Ends.pure fun p _ => by rw [hu, ht]
    have hname : w.folder f.name ≠ none := ht ▸ hthere rfl
    refine Ends.seq (Q := fun _ x => x.folder = w.folder)
      (setPhase_ends _ ((tick_folder u).trans (hu.trans ht))) ?_
    rintro - x hx
    refine Ends.seq (Q := fun _ y => y.folder = w.folder) (Ends.attempt (look_serves hok _
      (fun _ _ => (tick_folder x).trans hx) fun _ => (tick_folder x).trans hx)) ?_
    rintro r y hy
    refine Ends.seq (Q := fun _ z => z.folder = w.folder) ?_ ?_
    · unfold Manager.sameFile
      split
      · refine Ends.seq (Q := fun _ z => z.folder = w.folder) (Ends.because (look_serves hok _
          (fun _ _ => (tick_folder y).trans hy) fun hnone => ?_)) fun _ _ h => Ends.pure h
        rw [hy] at hnone
        exact hname (Option.map_eq_none_iff.mp hnone)
      · exact Ends.pure hy
    rintro (_ | _) z hz
    · refine Ends.seq (Q := fun _ t => Away [f.name, MARKER, MARKER_TMP] w.folder t)
        (Ends.because (change_serves hok _
        (fun time d hd p hp => ?_) fun time hnone => ?_)) fun _ _ h => Ends.pure h
      · obtain ⟨-, -, rfl⟩ := Option.map_eq_some_iff.mp hd
        refine (Function.update_of_ne (List.ne_of_not_mem_cons hp) ..).trans ?_
        rw [hz]
      · rw [hz] at hnone
        exact hname (Option.map_eq_none_iff.mp hnone)
    · refine (remember_serves hok v (by rwa [hz])).imp (fun _ a ha p hp => ?_) fun _ _ h => h
      exact (ha p (List.not_mem_of_not_mem_cons hp)).trans (by rw [hz])
  · exact Ends.pure fun p _ => by rw [ht]

/-- No `.part` of a file is new. -/
def Fewer (files : List ModelFile) (d : Folder) (w : World) : Prop :=
  ∀ g ∈ files, w.folder g.part ≠ none → d g.part ≠ none

theorem Cleared.fewer {d : Folder} (h : Cleared f d w) (A : Apart files) (hf : f ∈ files) :
    Fewer files d w := by
  intro g hg hsome
  by_cases hpart : g.part = f.part
  · rw [hpart] at hsome
    exact absurd h.part hsome
  · rwa [h.others g.part hpart (A.parts f hf g hg)] at hsome

theorem Away.fewer {names : List String} {d : Folder} (h : Away names d w)
    (hnames : ∀ g ∈ files, g.part ∉ names) : Fewer files d w := by
  intro g hg hsome
  rwa [h g.part (hnames g hg)] at hsome

/-- **A fetch that fails leaves a `.part` less**, and no fetch leaves a new one. -/
def Gains (files : List ModelFile) (d : Folder) (e : Stop String) (w : World) : Prop :=
  (∃ why, e = .failed why) ∧ Fewer files d w ∧ ∃ g ∈ files, d g.part ≠ none ∧ w.folder g.part = none

/-- One file is obtained and no part is new, or a wrong part is gone. -/
theorem obtain_serves (S : Serves o files content) (hf : f ∈ files) (A : Apart files)
    (before rounds : Nat) (v : Verified) :
    Ends (m.obtain' o f before (rounds + 2) v) w (fun _ t => Fewer files w.folder t) fun e t =>
    Gains files w.folder e t := by
  unfold Manager.obtain'
  refine Ends.seq ((verified_serves S.ok v).imp (fun _ _ h => h) fun _ _ h => h.elim) ?_
  rintro (_ | _) t ht
  · refine Ends.seq ((download_serves (m := m) (w := t) S hf A before m.total rounds false).imp
      (fun _ _ h => h)
      fun e u he => ?_) ?_
    · obtain ⟨hwhy, hwas, hcleared⟩ := he
      rw [ht] at hwas hcleared
      exact ⟨hwhy, hcleared.fewer A hf, f, hf, hwas, hcleared.part⟩
    · rintro - u ⟨hcleared, hname⟩
      rw [ht] at hcleared
      refine (remember_serves S.ok v hname).imp (fun _ x hx g hg hsome => ?_) fun _ _ h => h.elim
      refine hcleared.fewer A hf g hg ((hx.fewer fun h hh => ?_ : Fewer files _ _) g hg hsome)
      have hmarker := A.marker h hh
      exact List.not_mem_cons_of_ne_of_not_mem hmarker.1
        (List.not_mem_cons_of_ne_of_not_mem hmarker.2.1 List.not_mem_nil)
  · exact Ends.pure fun g _ hsome => ht ▸ hsome

/-- The files are obtained one after the other, or a wrong part is gone. -/
theorem fetchFiles_serves (S : Serves o files content) (A : Apart files) (rounds : Nat)
    (rest : List ModelFile) (hrest : rest ⊆ files) (done : Nat) (v : Verified) :
    Ends (m.fetchFiles o (rounds + 2) rest done v) w (fun _ t => Fewer files w.folder t)
      fun e t => Gains files w.folder e t := by
  induction rest generalizing w done v with
  | nil => exact Ends.pure fun _ _ h => h
  | cons f rest ih =>
    have hf := hrest List.mem_cons_self
    unfold Manager.fetchFiles
    refine Ends.seq ((check_serves S.ok v).imp (fun _ _ h => h) fun _ _ h => h.elim) ?_
    rintro v t ht
    have ht : Fewer files w.folder t := ht.fewer fun g hg => by
      have hmarker := A.marker g hg
      exact List.not_mem_cons_of_ne_of_not_mem (A.parts f hf g hg)
        (List.not_mem_cons_of_ne_of_not_mem hmarker.1
          (List.not_mem_cons_of_ne_of_not_mem hmarker.2.1 List.not_mem_nil))
    have hgains {d : Folder} {u : World} {e : Stop String}
      (hd : ∀ g ∈ files, d g.part ≠ none → w.folder g.part ≠ none)
        (h : Gains files d e u) : Gains files w.folder e u := by
      obtain ⟨hwhy, hfewer, g, hg, hwas, hgone⟩ := h
      exact ⟨hwhy, fun i hi hsome => hd i hi (hfewer i hi hsome), g, hg, hd g hg hwas, hgone⟩
    refine Ends.seq ((obtain_serves S hf A done rounds v).imp (fun _ _ h => h) fun _ _ h =>
      hgains ht h) ?_
    rintro v u hu
    have hu : Fewer files w.folder u := fun g hg hsome => ht g hg (hu g hg hsome)
    exact (ih (fun g hg => hrest (List.mem_cons_of_mem f hg)) (done + f.size) v).imp
      (fun _ x hx g hg hsome => hu g hg (hx g hg hsome)) fun _ _ h => hgains hu h

/-- A fetch reaches `Ready`, or it fails and leaves a `.part` less. -/
theorem fetch_serves (S : Serves o m.files content) (A : Apart m.files) (rounds : Nat) :
    Ends (m.fetch o (rounds + 2)) w
      (fun r t => (r = .ok () ∧ t.state.phase = .ready) ∨
        Fewer m.files w.folder t ∧ ∃ g ∈ m.files, w.folder g.part ≠ none ∧ t.folder g.part = none)
        fun _ _ => False := by
  unfold Manager.fetch
  refine Ends.seq (Q := fun r t => r = .ok () ∨
    Fewer m.files w.folder t ∧ ∃ g ∈ m.files, w.folder g.part ≠ none ∧ t.folder g.part = none)
    (Ends.attempt ?_) ?_
  · unfold Manager.fetchAll
    refine Ends.seq (Q := fun _ t => t.folder = w.folder)
      (Ends.because (look_serves S.ok _ (fun _ _ => tick_folder w) nofun)) ?_
    rintro - t ht
    refine Ends.seq (Q := fun _ t => t.folder = w.folder) ?_ fun v u hu => ?_
    · unfold Manager.readVerified
      refine Ends.seq (Q := fun _ t => t.folder = w.folder) (Ends.attempt (look_serves S.ok _
        (fun _ _ => (tick_folder t).trans ht) fun _ => (tick_folder t).trans ht)) ?_
      rintro (_ | _) u hu
      · exact Ends.pure hu
      · exact Ends.pure hu
    · refine (fetchFiles_serves S A rounds m.files (List.Subset.refl _) 0 v).imp
        (fun _ _ _ => .inl rfl) fun e x he => ?_
      obtain ⟨⟨why, rfl⟩, hfewer, g, hg, hwas, hgone⟩ := he
      rw [hu] at hfewer hwas
      exact .inr ⟨hfewer, g, hg, hwas, hgone⟩
  · rintro r t h
    unfold Manager.finish Ends Io.atomic
    dsimp only
    rcases h with rfl | ⟨hfewer, g, hg, hwas, hgone⟩
    · exact .inl ⟨rfl, rfl⟩
    · have hfolder := tick_folder (o := o) t
      cases r with
      | ok _ => exact .inl ⟨rfl, rfl⟩
      | error why =>
        refine .inr ⟨fun i hi hsome => hfewer i hi ?_, g, hg, hwas, ?_⟩
        · exact hfolder ▸ hsome
        · exact (congrFun hfolder g.part).trans hgone

/-! ## Fetches in a row -/

/-- After `n` fetches in a row. -/
def Manager.fetches (o : Outside) (m : Manager) (rounds : Nat) : Nat → World → World
  | 0, w => w
  | n + 1, w =>
    match m.fetch o rounds w with
    | .ok _ t => fetches o m rounds n t
    | .error _ t => fetches o m rounds n t

/-- The files that have a `.part`. -/
def parts (files : List ModelFile) (d : Folder) : Nat := files.countP fun f => (d f.part).isSome

theorem parts_le {d : Folder} (h : Fewer files d w) : parts files w.folder ≤ parts files d := by
  refine List.countP_mono_left fun g hg hsome => ?_
  have hne : w.folder g.part ≠ none := Option.isSome_iff_ne_none.mp hsome
  exact Option.isSome_iff_ne_none.mpr (h g hg hne)

/-- A part that is gone, and no new one, makes the parts fewer. -/
theorem parts_lt {d : Folder} (h : Fewer files d w) {g : ModelFile} (hg : g ∈ files)
    (hwas : d g.part ≠ none)
    (hgone : w.folder g.part = none) : parts files w.folder < parts files d := by
  induction files with
  | nil => cases hg
  | cons f files ih =>
    have hrest : Fewer files d w := fun i hi => h i (List.mem_cons_of_mem f hi)
    unfold parts
    rw [List.countP_cons, List.countP_cons]
    rcases List.mem_cons.mp hg with rfl | hg
    · rw [hgone, Option.isSome_iff_ne_none.mpr hwas]
      exact Nat.lt_succ_of_le (parts_le hrest)
    · have hlt : parts files w.folder < parts files d := ih hrest hg
      refine Nat.add_lt_add_of_lt_of_le hlt ?_
      have hf := h f List.mem_cons_self
      cases hw : w.folder f.part with
      | none => exact Nat.zero_le _
      | some data =>
        rw [Option.isSome_iff_ne_none.mpr (hf (by rw [hw]; exact nofun))]
        exact Nat.le_refl _

/-- **One fetch more than there are files reaches `Ready`**, from any folder. -/
theorem fetches_ready (S : Serves o m.files content) (A : Apart m.files) (rounds : Nat) {n : Nat}
    (hn : parts m.files w.folder ≤ n) :
    ∃ k ≤ n + 1, (m.fetches o (rounds + 2) k w).state.phase = .ready := by
  induction n generalizing w with
  | zero =>
    rcases (fetch_serves (w := w) S A rounds).cases with ⟨r, t, ht, hq⟩ | ⟨-, -, -, h⟩
    · refine ⟨1, Nat.le_refl 1, ?_⟩
      have hfetches : m.fetches o (rounds + 2) 1 w = t := by simp only [Manager.fetches, ht]
      rw [hfetches]
      rcases hq with ⟨-, hready⟩ | ⟨hfewer, g, hg, hwas, hgone⟩
      · exact hready
      · exact absurd (parts_lt hfewer hg hwas hgone) (Nat.not_lt.mpr (hn.trans (Nat.zero_le _)))
    · exact h.elim
  | succ n ih =>
    rcases (fetch_serves (w := w) S A rounds).cases with ⟨r, t, ht, hq⟩ | ⟨-, -, -, h⟩
    · have hfetches (k : Nat) : m.fetches o (rounds + 2) (k + 1) w = m.fetches o
          (rounds + 2) k t := by
        simp only [Manager.fetches, ht]
      rcases hq with ⟨-, hready⟩ | ⟨hfewer, g, hg, hwas, hgone⟩
      · refine ⟨1, Nat.succ_le_succ (Nat.zero_le _), ?_⟩
        rw [hfetches]
        exact hready
      · have hlt := parts_lt hfewer hg hwas hgone
        obtain ⟨k, hk, hready⟩ := ih (w := t) (Nat.le_of_lt_succ (Nat.lt_of_lt_of_le hlt hn))
        refine ⟨k + 1, Nat.succ_le_succ hk, ?_⟩
        rw [hfetches]
        exact hready
    · exact h.elim

end Sonara.Kokoro
