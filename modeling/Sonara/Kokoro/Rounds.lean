import Sonara.Kokoro.Calls

/-!
# When a fetch ends

The loop of `download` goes on in three ways: a `.part` that is too long was removed, or it could
not be removed, or the download starts over, which it does once (`Round`). Only a `.part` that can
never be removed keeps it going for ever (`Stuck`).
-/

namespace Sonara.Kokoro

open Lib (Stop Effects Ends Halts Resolves attempt because run_ok run_error)
open Io

variable {o : Outside} {m : Manager} {w : World} {f : ModelFile}

/-! ## What has no loop -/

section

variable {α : Type}

theorem ask_halts (c : Call) (act : Nat → Folder → Option (α × Folder))
    (torn : Nat → Nat → Folder → Folder) :
    Halts (ask o c act torn) := fun _ => ask_ends c (fun _ _ _ _ => trivial) fun _ _ h => h

theorem look_halts (c : Call) (act : Folder → Option α) : Halts (look o c act) :=
  fun _ => look_ends c (fun _ _ => trivial) fun _ h => h

theorem change_halts (c : Call) (act : Nat → Folder → Option Folder) : Halts (change o c act) :=
  fun _ => change_ends c (fun _ _ _ => trivial) fun _ h => h

end

/-- A copy ends, whatever the calls answer. -/
theorem copy_halts (before total : Nat) (reads : List (List UInt8)) (cut : Option String)
    (pos : Nat) :
    Halts (m.copy o f before total pos reads cut) := by
  induction reads generalizing pos with
  | nil =>
    cases cut with
    | none => exact .pure _
    | some e => exact .throw nofun
  | cons chunk reads ih =>
    unfold Manager.copy
    split
    · exact .pure _
    · split
      · exact .throw nofun
      · refine .bind (.because (ask_halts _ _ _)) fun _ => .bind (fun _ => trivial) fun tell => ?_
        cases tell with
        | false => exact ih _
        | true => exact .bind (fun _ => trivial) fun _ => ih _

theorem receive_halts (before total pos : Nat) (r : Response) :
    Halts (m.receive o f before total pos r) := by
  unfold Manager.receive
  refine .bind (look_halts _ _) fun _ => .bind (copy_halts _ _ _ _ _) fun pos' =>
    .bind (look_halts _ _) fun _ => ?_
  split
  · exact .throw nofun
  · exact .pure _

/-- A request ends. -/
theorem request_halts (before total pos : Nat) : Halts (m.request o f pos before total) := by
  unfold Manager.request
  refine .bind (.because fun w => request_ends (fun _ _ => trivial) fun _ _ => nofun) fun r => ?_
  refine .bind (.because (change_halts _ _)) fun _ => ?_
  split
  · split
    · exact receive_halts _ _ _ _
    · exact .pure _
  · split
    · exact .bind (change_halts _ _) fun _ => receive_halts _ _ _ _
    · split
      · exact .pure _
      · exact .throw nofun

theorem place_halts : Halts (m.place o f) := by
  unfold Manager.place
  refine .bind (.because (look_halts _ _)) fun got => ?_
  split
  · exact .bind (.attempt (change_halts _ _)) fun _ => .throw nofun
  · exact .bind (.because (change_halts _ _)) fun _ _ => trivial

theorem verified_halts (v : Verified) : Halts (Manager.verified o f v) := by
  unfold Manager.verified
  refine .bind (.attempt (look_halts _ _)) fun r => ?_
  cases r with
  | ok p => exact .pure _
  | error why => exact .pure _

/-- Remembering a file ends. -/
theorem remember_halts (v : Verified) : Halts (Manager.remember o f v) := by
  unfold Manager.remember
  refine .bind (look_halts _ _) fun p => .bind (fun _ => trivial) fun _ => .bind ?_ fun _ => .pure _
  unfold Manager.writeVerified
  split
  · exact .pure _
  next bytes _ =>
    have hwrite : Halts (write o MARKER_TMP bytes) := by
      unfold write
      exact ask_halts _ _ _
    refine .bind (.attempt hwrite) fun r => ?_
    cases r with
    | ok p => exact .bind (.attempt (change_halts _ _)) fun _ => .pure _
    | error why => exact .pure _

/-- A check ends, whatever the calls answer. -/
theorem check_halts (v : Verified) : Halts (m.check o f v) := by
  unfold Manager.check
  refine .bind (verified_halts v) fun ok => ?_
  cases ok with
  | true => exact .pure _
  | false =>
    have hfile : Halts (isFile o f.name) := by
      unfold isFile
      refine .bind (.attempt (look_halts _ _)) fun r => ?_
      cases r with
      | ok p => exact .pure _
      | error why => exact .pure _
    refine .bind hfile fun there => ?_
    cases there with
    | false => exact .pure _
    | true =>
      refine .bind (fun _ => trivial) fun _ => .bind (.attempt (look_halts _ _)) fun size =>
        .bind ?_ fun same => ?_
      · unfold Manager.sameFile
        split
        · exact .bind (.because (look_halts _ _)) fun _ => .pure _
        · exact .pure _
      · cases same with
        | true => exact remember_halts v
        | false => exact .bind (.because (change_halts _ _)) fun _ => .pure _

/-! ## One round of the loop -/

/-- The `.part` is too long, and could not be removed just now. -/
structure Stuck (o : Outside) (f : ModelFile) (w : World) : Prop where
  large : ∃ data, w.folder f.part = some data ∧ f.size < data.bytes.length
  refused : ∃ why done, o.answer (w.calls - 1) (.remove f.part) = .fails why done

variable {before total : Nat} {restarted : Bool}

/-- What a round of the loop comes to. -/
inductive Round (o : Outside) (m : Manager) (f : ModelFile) (before total : Nat) (restarted : Bool)
    (w : World) : Prop
  | ends (r : EStateM.Result (Stop String) World Unit) (hends : ∀ t, r ≠ .error .spins t)
      (h : ∀ k, m.download o f before total restarted (k + 1) w = r)
  | refused (t : World) (hstuck : Stuck o f t) (hwas : w.folder f.part ≠ none)
      (h : ∀ k, m.download o f before total restarted
        (k + 1) w = m.download o f before total restarted k t)
  | removed (t : World) (hgone : t.folder f.part = none) (hwas : w.folder f.part ≠ none)
      (h : ∀ k, m.download o f before total restarted
        (k + 1) w = m.download o f before total restarted k t)
  | restarts (t : World) (hfirst : restarted = false)
      (h : ∀ k, m.download o f before total restarted
        (k + 1) w = m.download o f before total true k t)

/-- A length that is read is that of the `.part`. -/
theorem partLength_reads : Ends (Manager.partLength o f) w
    (fun pos t => t.folder = w.folder ∧
      (0 < pos → ∃ data, w.folder f.part = some data ∧ data.bytes.length = pos))
    fun e _ => e ≠ .spins := by
  unfold Manager.partLength
  refine Ends.seq (Q := fun r t => t.folder = w.folder ∧ ∀ p, r = .ok p →
    ∃ data, w.folder f.part = some data ∧ data.bytes.length = p.1)
    (Ends.attempt (look_ends _ (fun p hp => ⟨tick_folder w, fun q hq => ?_⟩) fun e he => ?_)) ?_
  · obtain rfl := Except.ok.inj hq
    obtain ⟨data, hdata, rfl⟩ := Option.map_eq_some_iff.mp hp
    exact ⟨data, hdata, rfl⟩
  · cases e with
    | failed why => exact ⟨tick_folder w, nofun⟩
    | crashed => exact he
    | spins => exact he
  rintro (why | p) t ⟨hfolder, h⟩
  · exact Ends.bind ⟨hfolder, fun hpos => absurd hpos (Nat.lt_irrefl 0)⟩
  · exact Ends.pure ⟨hfolder, fun _ => h p rfl⟩

/-- A download either ends within a round or goes into the next with its part cut. -/
theorem download_round (restarted : Bool) (w : World) : Round o m f before total restarted w := by
  -- Whatever follows the length that was read.
  have hstops {e : Stop String} {t : World} (he : e ≠ .spins) :
      ∀ u, (.error e t : EStateM.Result (Stop String) World Unit) ≠ .error .spins u := by
    rintro u heq
    cases heq
    exact he rfl
  have hplace {t : World} (h : ∀ k, m.download o f before total restarted
    (k + 1) w = m.place o f t) :
      Round o m f before total restarted w := by
    refine .ends (m.place o f t) (fun u hu => ?_) h
    exact place_halts.stops hu rfl
  rcases (partLength_reads (o := o) (f := f) (w := w)).cases with
    ⟨pos, t, hlen, hfolder, hpart⟩ | ⟨e, t, hlen, he⟩
  · by_cases hlarge : f.size < pos
    · obtain ⟨data, hdata, rfl⟩ := hpart (Nat.zero_lt_of_lt hlarge)
      have hwas : w.folder f.part ≠ none := by
        rw [hdata]
        exact nofun
      have htail : ∀ k, m.download o f before total restarted (k + 1) w =
          (attempt (remove o f.part) >>= fun _ => m.download o f before total restarted k) t := by
        intro k
        rw [Manager.download, run_ok hlen, if_pos hlarge]
      have hrem : Ends (attempt (remove o f.part)) t
          (fun r u => (r = .ok () → u.folder f.part = none) ∧ ∀ why, r = .error why → Stuck o f u)
          fun e _ => e ≠ .spins := by
        refine Ends.attempt (remove_ends (?_ : _ = some data) ?_ ?_ nofun)
        · rw [hfolder]
          exact hdata
        · exact ⟨fun _ => Function.update_self .., nofun⟩
        · intro why done hanswer
          refine ⟨nofun, fun _ _ => ⟨⟨data, ?_, hlarge⟩, why, done, hanswer⟩⟩
          rw [tick_folder, hfolder]
          exact hdata
      rcases hrem.cases with ⟨r, u, hr, hu⟩ | ⟨e, u, hr, he⟩
      · cases r with
        | ok _ => exact .removed u (hu.1 rfl) hwas fun k => (htail k).trans (run_ok hr)
        | error why => exact .refused u (hu.2 why rfl) hwas fun k => (htail k).trans (run_ok hr)
      · exact .ends _ (hstops he) fun k => (htail k).trans (run_error hr)
    · obtain ⟨t', hphase⟩ : ∃ t', setPhase o (.downloading (before + pos) total) t = .ok () t' :=
        ⟨_, rfl⟩
      by_cases hless : pos < f.size
      · rcases (request_halts (o := o) (m := m) (f := f) before total pos t').cases with
          ⟨r, u, hr, -⟩ | ⟨e, u, hr, he⟩
        · cases r with
          | done =>
            refine hplace (t := u) fun k => ?_
            rw [Manager.download, run_ok hlen, if_neg hlarge, if_pos hless, run_ok hphase]
            exact run_ok hr
          | restart =>
            cases restarted with
            | true =>
              refine .ends (.error (.failed (f.name ++ ": the server cannot resume")) u)
                (hstops nofun) fun k => ?_
              rw [Manager.download, run_ok hlen, if_neg hlarge, if_pos hless, run_ok hphase]
              exact run_ok hr
            | false =>
              have htail : ∀ k, m.download o f before total false (k + 1) w =
                  (attempt (remove o f.part) >>= fun _ =>
                    m.download o f before total true k) u := by
                intro k
                rw [Manager.download, run_ok hlen, if_neg hlarge, if_pos hless, run_ok hphase]
                exact run_ok hr
              rcases ((change_halts (o := o) (.remove f.part) _).attempt u).cases with
                ⟨r, x, hx, -⟩ | ⟨e, x, hx, he⟩
              · exact .restarts x rfl fun k => (htail k).trans (run_ok hx)
              · exact .ends _ (hstops he) fun k => (htail k).trans (run_error hx)
        · refine .ends (.error e u) (hstops he) fun k => ?_
          rw [Manager.download, run_ok hlen, if_neg hlarge, if_pos hless, run_ok hphase]
          exact run_error hr
      · exact hplace (t := t') fun k => by
          rw [Manager.download, run_ok hlen, if_neg hlarge, if_neg hless, run_ok hphase]
  · refine .ends (.error e t) (hstops he) fun k => ?_
    rw [Manager.download]
    exact run_error hlen

/-! ## A loop that does not end -/

/-- All rounds are used up. -/
def Spins (o : Outside) (m : Manager) (f : ModelFile) (before total : Nat) (restarted : Bool)
    (k : Nat) (w : World) : Prop :=
  ∃ t, m.download o f before total restarted k w = .error .spins t

/-- And the `.part` could not be removed in the last. -/
def Refused (o : Outside) (m : Manager) (f : ModelFile) (before total : Nat) (restarted : Bool)
    (k : Nat) (w : World) :
    Prop :=
  ∃ t, m.download o f before total restarted k w = .error .spins t ∧ Stuck o f t

theorem spins_next {b b' : Bool} {t : World} (hall : ∀ k, Spins o m f before total b k w)
    (h : ∀ k, m.download o f before total b (k + 1) w = m.download o f before total b' k t)
    (k : Nat) :
    Spins o m f before total b' k t := by
  obtain ⟨u, hu⟩ := hall (k + 1)
  exact ⟨u, (h k).symm.trans hu⟩

theorem refused_back {b b' : Bool} {t : World} {k : Nat}
    (h : ∀ k, m.download o f before total b (k + 1) w = m.download o f before total b' k t)
    (hr : Refused o m f before total b' k t) : Refused o m f before total b (k + 1) w := by
  obtain ⟨u, hu, hstuck⟩ := hr
  exact ⟨u, (h k).trans hu, hstuck⟩

theorem refused_zero {t : World} (hstuck : Stuck o f t) :
    Refused o m f before total restarted 0 t :=
  ⟨t, by rw [Manager.download]; rfl, hstuck⟩

/-- Without a `.part` a loop that goes on starts over. -/
theorem gone_restarts (hall : ∀ k, Spins o m f before total restarted k w)
    (hgone : w.folder f.part = none) :
    restarted = false ∧ ∃ t, ∀ k, m.download o f before total restarted
    (k + 1) w = m.download o f before total true k t := by
  rcases (download_round restarted w : Round o m f before total restarted w) with
    ⟨r, hends, h⟩ | ⟨t, -, hwas, -⟩ | ⟨t, -, hwas, -⟩ | ⟨t, hfirst, h⟩
  · obtain ⟨t, ht⟩ := hall 1
    exact absurd ((h 0).symm.trans ht) (hends t)
  · exact absurd hgone hwas
  · exact absurd hgone hwas
  · exact ⟨hfirst, t, h⟩

/-- Having started over, a loop that goes on fails to remove the `.part` in its first round. -/
theorem restarted_round (hall : ∀ k, Spins o m f before total true k w) :
    ∃ t, Stuck o f t ∧ ∀ k, m.download o f before total true
    (k + 1) w = m.download o f before total true k t := by
  rcases (download_round true w : Round o m f before total true w) with
    ⟨r, hends, h⟩ | ⟨t, hstuck, -, h⟩ | ⟨t, hgone, -, h⟩ | ⟨t, hfirst, h⟩
  · obtain ⟨t, ht⟩ := hall 1
    exact absurd ((h 0).symm.trans ht) (hends t)
  · exact ⟨t, hstuck, h⟩
  · cases (gone_restarts (spins_next hall h) hgone).1
  · cases hfirst

theorem restarted_refused (k : Nat) (hall : ∀ k, Spins o m f before total true k w) :
    Refused o m f before total true (k + 1) w := by
  obtain ⟨t, hstuck, h⟩ := restarted_round hall
  induction k generalizing w t with
  | zero => exact refused_back h (refused_zero hstuck)
  | succ k ih =>
    have hnext := spins_next hall h
    obtain ⟨u, hstuck', h'⟩ := restarted_round hnext
    exact refused_back h (ih hnext u hstuck' h')

/-- So does one that has not, or it is about to. -/
theorem unrestarted_round (hall : ∀ k, Spins o m f before total false k w) :
    (∃ t, Stuck o f t ∧ ∀ k, m.download o f before total false
      (k + 1) w = m.download o f before total false k t) ∨
      ∃ n, ∀ k, n ≤ k → Refused o m f before total false (k + 1) w := by
  have hrestarts {v t : World} (hv : ∀ k, Spins o m f before total false k v)
      (h : ∀ k, m.download o f before total false (k + 1) v = m.download o f before total true k t)
        (k : Nat)
      (hk : 1 ≤ k) : Refused o m f before total false (k + 1) v := by
    obtain ⟨j, rfl⟩ := Nat.exists_eq_add_of_le' hk
    exact refused_back h (restarted_refused j (spins_next hv h))
  rcases (download_round false w : Round o m f before total false w) with
    ⟨r, hends, h⟩ | ⟨t, hstuck, -, h⟩ | ⟨t, hgone, -, h⟩ | ⟨t, -, h⟩
  · obtain ⟨t, ht⟩ := hall 1
    exact absurd ((h 0).symm.trans ht) (hends t)
  · exact .inl ⟨t, hstuck, h⟩
  · have hnext := spins_next hall h
    obtain ⟨-, u, hu⟩ := gone_restarts hnext hgone
    refine .inr ⟨2, fun k hk => ?_⟩
    obtain ⟨j, rfl⟩ := Nat.exists_eq_add_of_le' (Nat.le_of_succ_le hk)
    exact refused_back h (hrestarts hnext hu j (Nat.le_of_succ_le_succ hk))
  · exact .inr ⟨1, hrestarts hall h⟩

/-- A loop that goes on fails to remove the `.part` in every round from some round on. -/
theorem unrestarted_refused (hall : ∀ k, Spins o m f before total false k w) :
    ∃ n, ∀ k, n ≤ k → Refused o m f before total false (k + 1) w := by
  by_cases hevery : ∀ k, Refused o m f before total false (k + 1) w
  · exact ⟨0, fun k _ => hevery k⟩
  obtain ⟨k, hk⟩ := not_forall.mp hevery
  clear hevery
  -- By the first round that is another.
  induction k generalizing w with
  | zero =>
    rcases unrestarted_round hall with ⟨t, hstuck, h⟩ | h
    · exact absurd (refused_back h (refused_zero hstuck)) hk
    · exact h
  | succ k ih =>
    rcases unrestarted_round hall with ⟨t, hstuck, h⟩ | h
    · obtain ⟨n, hn⟩ := ih (spins_next hall h) fun hr => hk (refused_back h hr)
      refine ⟨n + 1, fun j hj => ?_⟩
      obtain ⟨i, rfl⟩ := Nat.exists_eq_add_of_le' (Nat.le_of_add_left_le hj)
      exact refused_back h (hn i (Nat.le_of_succ_le_succ hj))
    · exact h

/-- From some number of rounds on it makes no difference. -/
def Settles (o : Outside) (m : Manager) (f : ModelFile) (before total : Nat) (restarted : Bool)
    (w : World) : Prop :=
  ∃ n r, (∀ j, n ≤ j → m.download o f before total restarted j w = r) ∧ ∀ t, r ≠ .error .spins t

theorem settles_back {b b' : Bool} {t : World}
    (h : ∀ k, m.download o f before total b (k + 1) w = m.download o f before total b' k t)
    (hs : Settles o m f before total b' t) : Settles o m f before total b w := by
  obtain ⟨n, r, hr, hends⟩ := hs
  refine ⟨n + 1, r, fun j hj => ?_, hends⟩
  obtain ⟨i, rfl⟩ := Nat.exists_eq_add_of_le' (Nat.le_of_add_left_le hj)
  exact (h i).trans (hr i (Nat.le_of_succ_le_succ hj))

/-- Rounds that are not used up are enough. -/
theorem unspun_settles {k : Nat} (h : ¬Spins o m f before total restarted k w) :
    Settles o m f before total restarted w := by
  induction k generalizing w restarted with
  | zero => exact absurd ⟨w, by rw [Manager.download]; rfl⟩ h
  | succ k ih =>
    have hback {b : Bool} {t : World}
        (hn : ∀ k, m.download o f before total restarted
          (k + 1) w = m.download o f before total b k t) :
        ¬Spins o m f before total b k t := by
      rintro ⟨u, hu⟩
      exact h ⟨u, (hn k).trans hu⟩
    rcases (download_round restarted w : Round o m f before total restarted w) with
      ⟨r, hends, hn⟩ | ⟨t, -, -, hn⟩ | ⟨t, -, -, hn⟩ | ⟨t, -, hn⟩
    · refine ⟨1, r, fun j hj => ?_, hends⟩
      obtain ⟨i, rfl⟩ := Nat.exists_eq_add_of_le' hj
      exact hn i
    · exact settles_back hn (ih (hback hn))
    · exact settles_back hn (ih (hback hn))
    · exact settles_back hn (ih (hback hn))

/-- **A download ends, or its `.part` is too long and can never be removed.** -/
theorem download_resolves (w : World) :
    Resolves (fun k => m.download o f before total false k) w (Stuck o f) := by
  by_cases hall : ∀ k, Spins o m f before total false k w
  · obtain ⟨n, hn⟩ := unrestarted_refused hall
    refine .inr ⟨n + 1, fun k hk => ?_⟩
    obtain ⟨j, rfl⟩ := Nat.exists_eq_add_of_le' (Nat.le_of_add_left_le hk)
    exact hn j (Nat.le_of_succ_le_succ hk)
  · obtain ⟨k, hk⟩ := not_forall.mp hall
    exact .inl (unspun_settles hk)

/-! ## The whole fetch -/

/-- A file of which the `.part` can never be removed. -/
def SomeStuck (o : Outside) (files : List ModelFile) (w : World) : Prop := ∃ f ∈ files, Stuck o f w

/-- Enough rounds resolve a fetch, unless some part can never be removed. -/
theorem fetchFiles_resolves (files : List ModelFile) (done : Nat) (v : Verified) (w : World) :
    Resolves (fun k => m.fetchFiles o k files done v) w (SomeStuck o files) := by
  induction files generalizing done v w with
  | nil => exact .of_halts (.pure ())
  | cons f files ih =>
    refine Resolves.bind (x := fun _ => m.check o f v) (.of_halts (check_halts v)) fun v t => ?_
    refine Resolves.bind (x := fun k => m.obtain' o f done k v) ?_ fun v u =>
      (ih (done + f.size) v u).imp fun x ⟨g, hg, hstuck⟩ => ⟨g, List.mem_cons_of_mem f hg, hstuck⟩
    refine Resolves.bind (x := fun _ => Manager.verified o f v) (.of_halts (verified_halts v))
      fun ok u => ?_
    cases ok with
    | true => exact .of_halts (.pure v)
    | false =>
      refine Resolves.bind (x := fun k => m.download o f done m.total false k)
        ((download_resolves u).imp fun x hstuck => ⟨f, List.mem_cons_self, hstuck⟩) fun _ x => ?_
      exact .of_halts (remember_halts v)

/-- **A fetch ends, or a `.part` is too long and can never be removed.** -/
theorem fetch_resolves (o : Outside) (m : Manager) (w : World) :
    Resolves (fun k => m.fetch o k) w (SomeStuck o m.files) := by
  refine Resolves.bind (x := fun k => attempt (m.fetchAll o k)) (.attempt ?_) fun result t =>
    .of_halts fun u => ?_
  · refine Resolves.bind (x := fun _ => because _ (createDirAll o))
      (.of_halts (.because (look_halts _ _))) fun _ t => ?_
    refine Resolves.bind (x := fun _ => Manager.readVerified o) (.of_halts ?_) fun v u =>
      fetchFiles_resolves m.files 0 v u
    unfold Manager.readVerified
    refine .bind (.attempt (look_halts _ _)) fun r => ?_
    cases r with
    | ok bytes => exact .pure _
    | error why => exact .pure _
  · cases result with
    | ok _ => trivial
    | error why => trivial

end Sonara.Kokoro
