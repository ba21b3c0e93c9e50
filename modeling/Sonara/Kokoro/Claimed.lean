import Sonara.Kokoro.Calls

/-!
# What a claimed fetch does

While a fetch runs no other is claimed, and what it renames into place or records has the pinned
hash (`Fetching`). It has the pinned size too, unless the length of its `.part` could not be read:
then the `.part` may have been longer than the file that was written over it.
-/

namespace Sonara.Kokoro

open Lib (Stop Effects Ends attempt because)
open Io

/-! ## What the marks say -/

/-- What the marks say of the next claim. -/
inductive Standing where
  | free
  | claimed
  | waits (retryAt : Nat)
  deriving DecidableEq, Repr

def standing : List Mark → Standing
  | [] => .free
  | .started :: _ => .free
  | .began _ :: _ => .claimed
  | .ended none :: _ => .free
  | .ended (some retryAt) :: _ => .waits retryAt
  | .blind _ :: marks => standing marks
  | .renamed _ _ :: marks => standing marks
  | .recorded _ _ :: marks => standing marks

/-- **A fetch is claimed when none runs**, and not before the retry time of the last failure. -/
def Orderly : List Mark → Prop
  | [] => True
  | .began now :: marks =>
    (standing marks ≠ .claimed ∧ ∀ retryAt, standing marks = .waits retryAt → retryAt ≤ now) ∧
      Orderly marks
  | _ :: marks => Orderly marks

/-- Bytes accepted for `f`: the pinned hash, and the pinned size unless the length of a `.part` of
it could not be read. -/
structure Exact (o : Outside) (f : ModelFile) (marks : List Mark) (bytes : List UInt8) : Prop where
  hash : o.sha256 bytes = f.pin
  size : bytes.length = f.size ∨ f.size < bytes.length ∧ .blind f ∈ marks

/-- **Nothing is accepted that is not pinned.** -/
def Pinned (o : Outside) (marks : List Mark) : Prop :=
  ∀ f bytes, Mark.renamed f bytes ∈ marks ∨ .recorded f bytes ∈ marks → Exact o f marks bytes

theorem Exact.mono {o : Outside} {f : ModelFile} {marks marks' : List Mark} {bytes : List UInt8}
    (h : Exact o f marks bytes) (hsub : marks ⊆ marks') : Exact o f marks' bytes :=
  ⟨h.hash, h.size.imp_right fun ⟨hlt, hblind⟩ => ⟨hlt, hsub hblind⟩⟩

variable {o : Outside} {m : Manager} {w : World} {f : ModelFile}

/-- A fetch runs in `w`. -/
structure Fetching (o : Outside) (w : World) : Prop where
  running : w.state.running = true
  claimed : standing w.marks = .claimed
  orderly : Orderly w.marks
  pinned : Pinned o w.marks

namespace Fetching

theorem withFolder (h : Fetching o w) (d : Folder) : Fetching o (w.withFolder d) :=
  ⟨h.running, h.claimed, h.orderly, h.pinned⟩

theorem tick (h : Fetching o w) : Fetching o (w.tick o) := by
  rw [tick_running h.running]
  exact ⟨h.running, h.claimed, h.orderly, h.pinned⟩

theorem tick_marks (h : Fetching o w) : (w.tick o).marks = w.marks := by rw [tick_running h.running]

theorem phase (h : Fetching o w) (p : Phase) :
    Fetching o { w with state := { w.state with phase := p } } :=
  ⟨h.running, h.claimed, h.orderly, h.pinned⟩

/-- One more mark that is no claim. -/
theorem mark (h : Fetching o w) {k : Mark} (hstanding : standing (k :: w.marks) = standing w.marks)
    (horderly : Orderly (k :: w.marks) = Orderly w.marks)
    (hexact : ∀ f bytes, k = .renamed f bytes ∨ k = .recorded f bytes → Exact o f w.marks bytes) :
    Fetching o { w with marks := k :: w.marks } := by
  refine ⟨h.running, hstanding.trans h.claimed, horderly.mpr h.orderly, fun f bytes hmem => ?_⟩
  have hsub : w.marks ⊆ k :: w.marks := List.subset_cons_self _ _
  rcases hmem with hmem | hmem
  · rcases List.mem_cons.mp hmem with heq | hmem
    · exact (hexact f bytes (.inl heq.symm)).mono hsub
    · exact (h.pinned f bytes (.inl hmem)).mono hsub
  · rcases List.mem_cons.mp hmem with heq | hmem
    · exact (hexact f bytes (.inr heq.symm)).mono hsub
    · exact (h.pinned f bytes (.inr hmem)).mono hsub

end Fetching

/-! ## Calls during a fetch -/

theorem remove_fetching (h : Fetching o w) (name : String) :
    Ends (remove o name) w (fun _ => Fetching o) fun _ => Fetching o :=
  change_ends _ (fun _ d _ => h.tick.withFolder d) fun _ _ => h.tick

/-! ## The `.part` while it is written -/

/-- The bytes of the `.part`, none when there is none. -/
def partBytes (f : ModelFile) (d : Folder) : List UInt8 := ((d f.part).map (·.bytes)).getD []

/-- The `.part` has been written up to `pos`: it ends there, unless its length could not be read. -/
structure UpTo (f : ModelFile) (pos : Nat) (w : World) : Prop where
  le : pos ≤ (partBytes f w.folder).length
  here : (partBytes f w.folder).length = pos ∨ .blind f ∈ w.marks

theorem UpTo.tick {pos : Nat} (h : UpTo f pos w) (F : Fetching o w) : UpTo f pos (w.tick o) := by
  refine ⟨?_, ?_⟩
  · rw [tick_folder]
    exact h.le
  · rw [tick_folder, F.tick_marks]
    exact h.here

theorem length_writeAt {bytes chunk : List UInt8} {pos : Nat} (h : pos ≤ bytes.length) :
    (writeAt bytes pos chunk).length = max bytes.length (pos + chunk.length) := by
  unfold writeAt
  rw [List.length_append, List.length_append, List.length_take, List.length_drop, Nat.min_eq_left h]
  omega

theorem partBytes_put (d : Folder) (data : FileData) :
    partBytes f (Function.update d f.part (some data)) = data.bytes := by
  unfold partBytes
  rw [Function.update_self]
  rfl

/-- Copying keeps the fetch's invariant and the part up to its position. -/
theorem copy_fetching (before total : Nat) (reads : List (List UInt8)) (cut : Option String)
    {pos : Nat} (F : Fetching o w) (h : UpTo f pos w) (hle : pos ≤ f.size) :
    Ends (m.copy o f before total pos reads cut) w
      (fun pos' w' => Fetching o w' ∧ UpTo f pos' w' ∧ pos' ≤ f.size) fun _ => Fetching o := by
  induction reads generalizing w pos with
  | nil =>
    cases cut with
    | none => exact Ends.pure ⟨F, h, hle⟩
    | some e => exact Ends.throw F
  | cons chunk reads ih =>
    unfold Manager.copy
    split
    · exact Ends.pure ⟨F, h, hle⟩
    · split
      · exact Ends.throw F
      next hfits =>
        have hfits : pos + chunk.length ≤ f.size := Nat.le_of_not_lt hfits
        refine Ends.seq (Q := fun _ w' => Fetching o w' ∧ UpTo f (pos + chunk.length) w')
          (Ends.because_same (ask_ends _ (fun time a d hd => ?_) fun _ d _ =>
            F.tick.withFolder d)) ?_
        · obtain ⟨d', hd', heq⟩ := Option.map_eq_some_iff.mp hd
          obtain ⟨data, hdata, rfl⟩ := Option.map_eq_some_iff.mp hd'
          obtain rfl : _ = d := congrArg Prod.snd heq
          have hbytes : partBytes f w.folder = data.bytes := by
            unfold partBytes
            rw [hdata]
            rfl
          have hlen : (writeAt data.bytes pos chunk).length = _ := length_writeAt (hbytes ▸ h.le)
          refine ⟨F.tick.withFolder _, ?_, ?_⟩
          · show _ ≤ (partBytes f (Function.update w.folder f.part _)).length
            rw [partBytes_put, hlen]
            exact Nat.le_max_right _ _
          · show (partBytes f (Function.update w.folder f.part _)).length = _ ∨ _ ∈ (w.tick o).marks
            rw [partBytes_put, hlen, F.tick_marks]
            refine h.here.imp_left fun hhere => ?_
            rw [← hbytes, hhere]
            exact Nat.max_eq_right (Nat.le_add_right _ _)
        · rintro - t ⟨F', h'⟩
          refine Ends.seq (Q := fun _ w' => Fetching o w' ∧ UpTo f (pos + chunk.length) w')
            ⟨F', h'⟩ ?_
          rintro tell u ⟨F'', h''⟩
          cases tell with
          | false => exact ih F'' h'' hfits
          | true =>
            refine Ends.seq (Q := fun _ w' => Fetching o w' ∧ UpTo f (pos + chunk.length) w')
              ⟨F''.tick.phase _, (h''.tick F'').le, (h''.tick F'').here⟩ ?_
            rintro - v ⟨F₃, h₃⟩
            exact ih F₃ h₃ hfits

/-- A response, received in full or not, leaves a part up to where it came. -/
theorem receive_fetching (before total : Nat) (r : Response) {pos : Nat} (F : Fetching o w)
    (h : UpTo f pos w) (hle : pos ≤ f.size) :
    Ends (m.receive o f before total pos r) w
    (fun _ w' => Fetching o w' ∧ UpTo f f.size w') fun _ => Fetching o := by
  unfold Manager.receive
  refine Ends.seq (Q := fun _ w' => Fetching o w' ∧ UpTo f pos w')
    (look_ends _ (fun _ _ => ⟨F.tick, h.tick F⟩) fun _ _ => F.tick) ?_
  rintro - t ⟨F, h⟩
  refine Ends.seq (copy_fetching before total r.reads r.cut F h hle) ?_
  rintro pos' u ⟨F, h, hle⟩
  refine Ends.seq (Q := fun _ w' => Fetching o w' ∧ UpTo f pos' w')
    (look_ends _ (fun _ _ => ⟨F.tick, h.tick F⟩) fun _ _ => F.tick) ?_
  rintro - v ⟨F, h⟩
  split
  · exact Ends.throw F
  next hnot =>
    obtain rfl : pos' = f.size := Nat.le_antisymm hle (Nat.le_of_not_lt hnot)
    exact Ends.pure ⟨F, h⟩

/-- One request adds to the part, or leaves it complete. -/
theorem request_fetching (before total : Nat) {pos : Nat} (F : Fetching o w) (h : UpTo f pos w)
    (hle : pos ≤ f.size) :
    Ends (m.request o f pos before total) w
    (fun r w' => Fetching o w' ∧ (r = .done → UpTo f f.size w'))
      fun _ => Fetching o := by
  unfold Manager.request
  refine Ends.seq (Q := fun _ w' => Fetching o w' ∧ UpTo f pos w') (Ends.because_same ?_) ?_
  · exact request_ends (fun _ _ => ⟨F.tick, h.tick F⟩) fun _ _ => F.tick
  rintro r t ⟨F, h⟩
  refine Ends.seq (Q := fun _ w' => Fetching o w' ∧ UpTo f pos w')
    (Ends.because_same (change_ends _ (fun time d hd => ?_) fun _ _ => F.tick)) ?_
  · obtain rfl := Option.some.inj hd
    have hbytes : partBytes f (Function.update t.folder f.part
        (some ((t.folder f.part).getD { bytes := [], modified := time }))) =
        partBytes f t.folder := by
      rw [partBytes_put]
      unfold partBytes
      cases t.folder f.part <;> rfl
    refine ⟨F.tick.withFolder _, ?_, ?_⟩
    · exact hbytes ▸ h.le
    · show _ ∨ _ ∈ (t.tick o).marks
      rw [F.tick_marks]
      exact h.here.imp_left fun hhere => (congrArg List.length hbytes).trans hhere
  rintro - u ⟨F, h⟩
  split
  · split
    · exact (receive_fetching before total r F h hle).imp (fun _ _ hq => ⟨hq.1, fun _ => hq.2⟩)
        fun _ _ hp => hp
    · exact Ends.pure ⟨F, nofun⟩
  · split
    · refine Ends.seq (Q := fun _ w' => Fetching o w' ∧ UpTo f 0 w')
        (change_ends _ (fun time d hd => ?_) fun _ _ => F.tick) ?_
      · obtain ⟨data, -, rfl⟩ := Option.map_eq_some_iff.mp hd
        have hbytes := partBytes_put (f := f) u.folder { bytes := [], modified := time }
        exact ⟨F.tick.withFolder _, Nat.zero_le _, .inl (congrArg List.length hbytes)⟩
      rintro - v ⟨F, h⟩
      exact (receive_fetching before total r F h (Nat.zero_le _)).imp
        (fun _ _ hq => ⟨hq.1, fun _ => hq.2⟩)
        fun _ _ hp => hp
    · split
      · exact Ends.pure ⟨F, nofun⟩
      · exact Ends.throw F

/-- The length that is read, or the mark that it was not. -/
theorem partLength_fetching (F : Fetching o w) :
    Ends (Manager.partLength o f) w (fun pos w' => Fetching o w' ∧ UpTo f pos w') fun _ =>
    Fetching o := by
  unfold Manager.partLength
  refine Ends.seq (Q := fun r w' => Fetching o w' ∧ ∀ p, r = .ok p → UpTo f p.1 w')
    (Ends.attempt (look_ends _ (fun p hp => ?_) fun e he => ?_)) ?_
  · refine ⟨F.tick, fun q hq => ?_⟩
    obtain rfl := Except.ok.inj hq
    obtain ⟨data, hdata, rfl⟩ := Option.map_eq_some_iff.mp hp
    have hbytes : partBytes f (w.tick o).folder = data.bytes := by
      rw [tick_folder]
      unfold partBytes
      rw [hdata]
      rfl
    exact ⟨Nat.le_of_eq (congrArg List.length hbytes.symm), .inl (congrArg List.length hbytes)⟩
  · cases e with
    | failed why => exact ⟨F.tick, nofun⟩
    | crashed => exact F.tick
    | spins => exact F.tick
  rintro (why | p) t ⟨F, h⟩
  · -- The length could not be read: it is taken to be 0.
    refine Ends.seq (Q := fun _ w' => Fetching o w' ∧ UpTo f 0 w') ?_ fun _ _ hq => Ends.pure hq
    cases hpart : t.folder f.part with
    | none =>
      refine note_ends (l := []) (by rw [hpart]; rfl) ⟨F, Nat.zero_le _, .inl ?_⟩
      show (partBytes f t.folder).length = 0
      unfold partBytes
      rw [hpart]
      rfl
    | some data =>
      refine note_ends (l := [.blind f]) (by rw [hpart]; rfl)
        ⟨F.mark rfl rfl ?_, Nat.zero_le _, .inr List.mem_cons_self⟩
      rintro g bytes (heq | heq) <;> cases heq
  · exact Ends.pure ⟨F, h p rfl⟩

/-- What is in place of `f` is exactly it. -/
def InPlace (o : Outside) (f : ModelFile) (w : World) : Prop :=
  ∀ data, w.folder f.name = some data → Exact o f w.marks data.bytes

/-- **A `.part` is renamed into place when it has the pinned hash.** -/
theorem place_fetching (F : Fetching o w) (h : UpTo f f.size w) :
    Ends (m.place o f) w (fun _ w' => Fetching o w' ∧ InPlace o f w') fun _ => Fetching o := by
  unfold Manager.place
  refine Ends.seq (Q := fun got w' => Fetching o w' ∧
      ∀ data, w'.folder f.part = some data → got = o.sha256 data.bytes ∧
        (data.bytes.length = f.size ∨ f.size < data.bytes.length ∧ .blind f ∈ w'.marks))
    (Ends.because_same (look_ends _ (fun got hgot => ?_) fun _ _ => F.tick)) ?_
  · refine ⟨F.tick, fun data hdata => ?_⟩
    rw [tick_folder] at hdata
    rw [hdata] at hgot
    have hbytes : partBytes f w.folder = data.bytes := by
      unfold partBytes
      rw [hdata]
      rfl
    refine ⟨(Option.some.inj hgot).symm, ?_⟩
    rw [F.tick_marks, ← hbytes]
    rcases h.here with hhere | hblind
    · exact .inl hhere
    · exact (Nat.eq_or_lt_of_le h.le).imp Eq.symm fun hlt => ⟨hlt, hblind⟩
  rintro got t ⟨F, h⟩
  split
  · refine Ends.seq (Q := fun _ => Fetching o) (Ends.attempt_same (remove_fetching F _)) ?_
    rintro - u F
    exact Ends.throw F
  next hpin =>
    have hpin : got = f.pin := not_not.mp hpin
    refine Ends.seq (Q := fun _ w' => Fetching o w' ∧ InPlace o f w')
      (Ends.because_same (change_ends _ (fun time d hd => ?_) fun _ _ => F.tick)) ?_
    · refine ⟨F.tick.withFolder d, fun data hdata => ?_⟩
      obtain ⟨data', hdata', rfl⟩ := Option.map_eq_some_iff.mp hd
      have hdata : Function.update (Function.update t.folder f.part none) f.name
        (some data') f.name = some data := hdata
      rw [Function.update_self] at hdata
      obtain rfl := Option.some.inj hdata
      obtain ⟨hhash, hsize⟩ := h data' hdata'
      show Exact o f (t.tick o).marks data'.bytes
      rw [F.tick_marks]
      exact ⟨hhash ▸ hpin, hsize⟩
    · rintro - u ⟨F, h⟩
      cases hname : u.folder f.name with
      | none => exact note_ends (l := []) (by rw [hname]; rfl) ⟨F, h⟩
      | some data =>
        refine note_ends (l := [.renamed f data.bytes]) (by rw [hname]; rfl)
          ⟨F.mark rfl rfl ?_, fun data' hdata' => (h data' hdata').mono (List.subset_cons_self _ _)⟩
        rintro g bytes (heq | heq)
        · cases heq
          exact h data hname
        · cases heq

/-- A download ends with the file in place, or fails with the invariant kept. -/
theorem download_fetching (before total rounds : Nat) (restarted : Bool) (F : Fetching o w) :
    Ends (m.download o f before total restarted rounds) w
    (fun _ w' => Fetching o w' ∧ InPlace o f w')
      fun _ => Fetching o := by
  induction rounds generalizing w restarted with
  | zero =>
    unfold Manager.download
    exact Ends.throw F
  | succ rounds ih =>
    unfold Manager.download
    refine Ends.seq (partLength_fetching F) ?_
    rintro pos t ⟨F, h⟩
    split
    · refine Ends.seq (Q := fun _ => Fetching o) (Ends.attempt_same (remove_fetching F _)) ?_
      rintro - u F
      exact ih restarted F
    next hle =>
      have hle : pos ≤ f.size := Nat.le_of_not_lt hle
      refine Ends.seq (Q := fun _ w' => Fetching o w' ∧ UpTo f pos w')
        ⟨F.tick.phase _, (h.tick F).le, (h.tick F).here⟩ ?_
      rintro - u ⟨F, h⟩
      split
      · refine Ends.seq (request_fetching before total F h hle) ?_
        rintro (_ | _) v ⟨F, h⟩
        · exact place_fetching F (h rfl)
        · cases restarted with
          | true => exact Ends.throw F
          | false =>
            refine Ends.seq (Q := fun _ => Fetching o) (Ends.attempt_same (remove_fetching F _)) ?_
            rintro - x F
            exact ih true F
      next hnot =>
        obtain rfl : pos = f.size := Nat.le_antisymm hle (Nat.le_of_not_lt hnot)
        exact place_fetching F h

/-! ## The whole fetch -/

/-- Remembering a verified file keeps the invariant. -/
theorem remember_fetching (v : Verified) (F : Fetching o w) (h : InPlace o f w) :
    Ends (Manager.remember o f v) w (fun _ => Fetching o) fun _ => Fetching o := by
  unfold Manager.remember
  refine Ends.seq (Q := fun _ w' => Fetching o w' ∧ InPlace o f w')
    (look_ends _ (fun _ _ => ⟨F.tick, fun data hdata => ?_⟩) fun _ _ => F.tick) ?_
  · rw [F.tick_marks]
    exact h data (by rw [← tick_folder (o := o) w]; exact hdata)
  rintro p t ⟨F, h⟩
  refine Ends.seq (Q := fun _ => Fetching o) ?_ ?_
  · cases hname : t.folder f.name with
    | none => exact note_ends (l := []) (by rw [hname]; rfl) F
    | some data =>
      refine note_ends (l := [.recorded f data.bytes]) (by rw [hname]; rfl) (F.mark rfl rfl ?_)
      rintro g bytes (heq | heq)
      · cases heq
      · cases heq
        exact h data hname
  rintro - u F
  refine Ends.seq (Q := fun _ => Fetching o) ?_ fun _ _ F => Ends.pure F
  unfold Manager.writeVerified
  split
  · exact Ends.pure F
  next bytes _ =>
    have hwrite : Ends (write o MARKER_TMP bytes) u (fun _ => Fetching o) fun _ => Fetching o := by
      unfold write
      exact ask_ends _ (fun _ _ d _ => F.tick.withFolder d) fun _ d _ => F.tick.withFolder d
    refine Ends.seq (Q := fun _ => Fetching o) (Ends.attempt_same hwrite) ?_
    rintro (_ | _) v F
    · exact Ends.pure F
    · refine Ends.seq (Q := fun _ => Fetching o) (Ends.attempt_same
        (change_ends _ (fun _ d _ => F.tick.withFolder d) fun _ _ => F.tick)) ?_
      exact fun _ _ F => Ends.pure F

theorem verified_fetching (v : Verified) (F : Fetching o w) :
    Ends (Manager.verified o f v) w (fun _ => Fetching o) fun _ => Fetching o := by
  unfold Manager.verified
  refine Ends.seq (Q := fun _ => Fetching o)
    (Ends.attempt_same (look_ends _ (fun _ _ => F.tick) fun _ _ => F.tick)) ?_
  rintro (_ | _) t F
  · exact Ends.pure F
  · exact Ends.pure F

theorem isFile_fetching (name : String) (F : Fetching o w) :
    Ends (isFile o name) w (fun _ => Fetching o) fun _ => Fetching o := by
  unfold isFile
  refine Ends.seq (Q := fun _ => Fetching o)
    (Ends.attempt_same (look_ends _ (fun _ _ => F.tick) fun _ _ => F.tick)) ?_
  rintro (_ | _) t F
  · exact Ends.pure F
  · exact Ends.pure F

/-- **A file found in place is recorded when it has the pinned size and hash.** -/
theorem check_fetching (v : Verified) (F : Fetching o w) :
    Ends (m.check o f v) w (fun _ => Fetching o) fun _ => Fetching o := by
  unfold Manager.check
  refine Ends.seq (verified_fetching v F) ?_
  rintro (_ | _) t F
  · refine Ends.seq (isFile_fetching f.name F) ?_
    rintro (_ | _) u F
    · exact Ends.pure F
    refine Ends.seq (Q := fun _ => Fetching o) (setPhase_ends _ (F.tick.phase _)) ?_
    rintro - x F
    -- The size, if it can be read, is that of the file hashed next.
    refine Ends.seq (Q := fun r w' => Fetching o w' ∧ ∀ p, r = .ok p →
      ∀ data, w'.folder f.name = some data →
      p.1 = data.bytes.length) (Ends.attempt (look_ends _ (fun p hp => ?_) fun e he => ?_)) ?_
    · refine ⟨F.tick, fun q hq data hdata => ?_⟩
      obtain rfl := Except.ok.inj hq
      rw [tick_folder] at hdata
      rw [hdata] at hp
      exact (congrArg Prod.fst (Option.some.inj hp)).symm
    · cases e with
      | failed why => exact ⟨F.tick, nofun⟩
      | crashed => exact F.tick
      | spins => exact F.tick
    rintro r y ⟨F, h⟩
    refine Ends.seq (Q := fun same w' => Fetching o w' ∧ (same = true → InPlace o f w')) ?_ ?_
    · unfold Manager.sameFile
      split
      next hsize =>
        refine Ends.seq (Q := fun got w' => Fetching o w' ∧ ∀ data, w'.folder f.name = some data →
          got = o.sha256 data.bytes ∧ data.bytes.length = f.size)
          (Ends.because_same (look_ends _ (fun got hgot => ⟨F.tick, fun data hdata => ?_⟩)
            fun _ _ => F.tick)) ?_
        · rw [tick_folder] at hdata
          rw [hdata] at hgot
          refine ⟨(Option.some.inj hgot).symm, ?_⟩
          cases r with
          | error why => cases hsize
          | ok p => exact (h p rfl data hdata).symm.trans (Option.some.inj hsize)
        · rintro got z ⟨F, h⟩
          refine Ends.pure ⟨F, fun hsame data hdata => ?_⟩
          obtain ⟨hhash, hlen⟩ := h data hdata
          exact ⟨hhash.symm.trans (beq_iff_eq.mp hsame), .inl hlen⟩
      · exact Ends.pure ⟨F, nofun⟩
    · rintro same z ⟨F, h⟩
      cases same with
      | true => exact remember_fetching v F (h rfl)
      | false =>
        refine Ends.seq (Q := fun _ => Fetching o) (Ends.because_same (remove_fetching F f.name)) ?_
        exact fun _ _ F => Ends.pure F
  · exact Ends.pure F

theorem obtain_fetching (before rounds : Nat) (v : Verified) (F : Fetching o w) :
    Ends (m.obtain' o f before rounds v) w (fun _ => Fetching o) fun _ => Fetching o := by
  unfold Manager.obtain'
  refine Ends.seq (verified_fetching v F) ?_
  rintro (_ | _) t F
  · refine Ends.seq (download_fetching before m.total rounds false F) ?_
    rintro - u ⟨F, h⟩
    exact remember_fetching v F h
  · exact Ends.pure F

theorem fetchFiles_fetching (rounds : Nat) (files : List ModelFile) (done : Nat) (v : Verified)
    (F : Fetching o w) :
    Ends (m.fetchFiles o rounds files done v) w (fun _ => Fetching o) fun _ => Fetching o := by
  induction files generalizing w done v with
  | nil => exact Ends.pure F
  | cons f files ih =>
    unfold Manager.fetchFiles
    refine Ends.seq (check_fetching v F) ?_
    rintro v t F
    refine Ends.seq (obtain_fetching done rounds v F) ?_
    rintro v u F
    exact ih (done + f.size) v F

/-- A fetch keeps its invariant. -/
theorem fetchAll_fetching (rounds : Nat) (F : Fetching o w) :
    Ends (m.fetchAll o rounds) w (fun _ => Fetching o) fun _ => Fetching o := by
  unfold Manager.fetchAll
  refine Ends.seq (Q := fun _ => Fetching o)
    (Ends.because_same (look_ends _ (fun _ _ => F.tick) fun _ _ => F.tick)) ?_
  rintro - t F
  refine Ends.seq (Q := fun _ => Fetching o) ?_ fun v u F =>
    fetchFiles_fetching rounds m.files 0 v F
  unfold Manager.readVerified
  refine Ends.seq (Q := fun _ => Fetching o)
    (Ends.attempt_same (look_ends _ (fun _ _ => F.tick) fun _ _ => F.tick)) ?_
  rintro (_ | _) t F
  · exact Ends.pure F
  · exact Ends.pure F

/-! ## Runs -/

/-- A process that is not in the middle of a fetch. -/
structure Resting (o : Outside) (w : World) : Prop where
  claimed : w.state.running = true ↔ standing w.marks = .claimed
  waits : ∀ retryAt, standing w.marks = .waits retryAt → ∃ why, w.state.phase = .failed why retryAt
  orderly : Orderly w.marks
  pinned : Pinned o w.marks

theorem Fetching.resting (F : Fetching o w) : Resting o w :=
  ⟨iff_of_true F.running F.claimed, fun _ h => (nomatch F.claimed.symm.trans h), F.orderly, F.pinned⟩

theorem Resting.fetching (R : Resting o w) (h : w.state.running = true) : Fetching o w :=
  ⟨h, R.claimed.mp h, R.orderly, R.pinned⟩

/-- A mark that accepts no file. -/
theorem Pinned.mark {marks : List Mark} (h : Pinned o marks) {k : Mark}
    (hk : ∀ f bytes, k ≠ .renamed f bytes ∧ k ≠ .recorded f bytes) : Pinned o (k :: marks) := by
  intro f bytes hmem
  refine Exact.mono (h f bytes ?_) (List.subset_cons_self _ _)
  exact hmem.imp (fun hmem => (List.mem_cons.mp hmem).resolve_left (hk f bytes).1.symm)
    fun hmem => (List.mem_cons.mp hmem).resolve_left (hk f bytes).2.symm

/-- A manager at rest may begin a fetch. -/
theorem Resting.begin (R : Resting o w) (now : Nat) : Resting o (w.begin now).2 := by
  have hclaim (hidle : w.state.running ≠ true)
      (hnow : ∀ retryAt, standing w.marks = .waits retryAt → retryAt ≤ now) :
      Resting o { w with state := { w.state with running := true }, marks := .began now :: w.marks } :=
    ⟨iff_of_true rfl rfl, nofun, ⟨⟨fun h => hidle (R.claimed.mpr h), hnow⟩, R.orderly⟩,
      R.pinned.mark fun _ _ => ⟨nofun, nofun⟩⟩
  unfold World.begin
  dsimp only
  split
  · exact R
  next hidle =>
    split
    next why retryAt hphase =>
      split
      · exact R
      next hlate =>
        refine hclaim hidle fun r hr => ?_
        obtain ⟨why', hphase'⟩ := R.waits r hr
        rw [hphase] at hphase'
        cases hphase'
        exact Nat.le_of_not_lt hlate
    next hother =>
      refine hclaim hidle fun r hr => ?_
      obtain ⟨why, hphase⟩ := R.waits r hr
      exact absurd hphase (hother why r)

/-- Behind a claimed fetch the manager rests. -/
theorem finish_resting (result : Except String Unit) (F : Fetching o w) :
    Ends (m.finish o result) w (fun _ => Resting o) fun _ _ => False := by
  unfold Manager.finish Ends Io.atomic
  dsimp only
  have F := F.tick
  cases result with
  | ok u =>
    exact ⟨iff_of_false nofun nofun, nofun, F.orderly, F.pinned.mark fun _ _ => ⟨nofun, nofun⟩⟩
  | error why =>
    refine ⟨iff_of_false nofun nofun, fun r hr => ⟨why, ?_⟩, F.orderly,
      F.pinned.mark fun _ _ => ⟨nofun, nofun⟩⟩
    cases hr
    rfl

theorem fetch_resting (rounds : Nat) (F : Fetching o w) :
    Ends (m.fetch o rounds) w (fun _ => Resting o) fun _ => Fetching o := by
  unfold Manager.fetch
  refine Ends.seq (Ends.attempt_same (fetchAll_fetching rounds F)) ?_
  rintro result t F
  exact (finish_resting result F).imp (fun _ _ R => R) fun _ _ h => h.elim

/-- What every point of a run keeps. -/
structure System.Inv (o : Outside) (s : System) : Prop where
  orderly : Orderly s.world.marks
  pinned : Pinned o s.world.marks
  resting : s.process ≠ .gone → Resting o s.world

theorem leave_inv {α : Type} {x : Io α} (h : Ends x w (fun _ => Resting o) fun _ => Fetching o) :
    System.Inv o (System.leave (x w)) := by
  unfold Ends at h
  cases hx : x w with
  | ok a t =>
    rw [hx] at h
    exact ⟨h.orderly, h.pinned, fun _ => h⟩
  | error e t =>
    rw [hx] at h
    cases e with
    | failed why => exact ⟨h.orderly, h.pinned, fun _ => h.resting⟩
    | crashed => exact ⟨h.orderly, h.pinned, fun hne => absurd rfl hne⟩
    | spins => exact ⟨h.orderly, h.pinned, fun _ => h.resting⟩

/-- Every event of the system keeps the invariant. -/
theorem System.Inv.step {s s' : System} {e : Event} (h : System.Inv o s)
    (hs : s.step o m e = some s') :
    System.Inv o s' := by
  cases e with
  | begin now =>
    unfold System.step at hs
    dsimp only at hs
    split at hs
    · cases hs
    next hlive =>
      obtain rfl := Option.some.inj hs
      have R := (h.resting hlive).begin now
      exact ⟨R.orderly, R.pinned, fun _ => R⟩
  | fetch rounds =>
    unfold System.step at hs
    dsimp only at hs
    split at hs
    next hrun =>
      obtain rfl := Option.some.inj hs
      have hlive : s.process ≠ .gone := fun hg => nomatch hg.symm.trans hrun.1
      exact leave_inv (fetch_resting rounds ((h.resting hlive).fetching hrun.2))
    · cases hs
  | fetchFailed reason =>
    unfold System.step at hs
    dsimp only at hs
    split at hs
    next hrun =>
      obtain rfl := Option.some.inj hs
      have hlive : s.process ≠ .gone := fun hg => nomatch hg.symm.trans hrun.1
      exact leave_inv ((finish_resting (.error reason) ((h.resting hlive).fetching hrun.2)).imp
        (fun _ _ R => R)
        fun _ _ h => h.elim)
    · cases hs
  | start =>
    obtain rfl := Option.some.inj hs
    have hpinned : Pinned o (.started :: s.world.marks) := h.pinned.mark fun _ _ => ⟨nofun, nofun⟩
    exact ⟨h.orderly, hpinned, fun _ => ⟨iff_of_false nofun nofun, nofun, h.orderly, hpinned⟩⟩

theorem initial_inv (folder : Folder) : System.Inv o (System.initial folder) :=
  ⟨trivial, fun _ _ h => absurd h (not_or.mpr ⟨List.not_mem_nil, List.not_mem_nil⟩),
    fun h => absurd rfl h⟩

end Sonara.Kokoro
