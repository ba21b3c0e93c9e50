import Sonara.L2.Stored
import Sonara.L2.Floor
import Mathlib.Data.List.InsertIdx

/-!
# Decisions that were answered

`drop_decisions` tells by the cursor whether a decision was read aloud: the ones before it
were. A replay, a step back or a rewind takes the cursor back over decisions that were
read, and in front of the cursor they count as unread. A decision that is dropped is in no
batch and never comes back (`Gone`); one that is not can be read again (`fed_again`). So
what was decided is not read again exactly when none of it stands in front of the cursor.
-/

namespace Sonara.L2

open Sonara (Text)

namespace Router

variable {r r' : Router} {a : ChannelId} {c c' : Channel} {op : Op} {i : Nat} {which : Resolved}

/-- The run appended `i` to `a` as a decision that is not stored. -/
def Asked (ops : List Op) (a : ChannelId) (i : Nat) : Prop :=
  ∃ pre text seg, ops = pre ++ .append a text true false :: seg ∧
    ((machine.state pre).append a text true false).2 = some i

/-- `i` was given out, and where it is in a batch it is a decision of `a`, not stored. -/
structure Marked (a : ChannelId) (i : Nat) (r : Router) : Prop where
  below : i ≤ r.nextEntry
  marked : ∀ c ∈ r.channels, i ∈ c.entryIds → c.id = a ∧ c.decisions i = some false

/-- `i` was given out and is in no batch. -/
structure Gone (i : Nat) (r : Router) : Prop where
  below : i ≤ r.nextEntry
  out : ∀ c ∈ r.channels, i ∉ c.entryIds

/-! ## The marks -/

theorem gone_congr {before : Bool} {e e' : Entry} (h : e.id = e'.id) :
    c.gone which before e = c.gone which before e' := by
  unfold Channel.gone
  rw [h]

/-- What stays of a batch was not dropped. -/
theorem left_not_dropped (hw : c.WellFormed)
    (hi : i ∈ (c.readLeft which ++ c.aheadLeft which).map Entry.id) : i ∉ c.dropped which := by
  have hn := hw.nodup
  unfold Channel.entryIds at hn
  rw [← c.read_append_ahead, List.map_append] at hn
  have hapart : ∀ e ∈ c.read, ∀ e' ∈ c.ahead, e.id ≠ e'.id := fun e he e' he' h =>
    (List.disjoint_of_nodup_append hn) (List.mem_map_of_mem he) (h ▸ List.mem_map_of_mem he')
  obtain ⟨e, he, rfl⟩ := List.mem_map.mp hi
  unfold Channel.dropped Channel.goneIds
  rw [List.mem_append]
  rintro (hg | hg)
  · obtain ⟨e', he', hid⟩ := List.mem_map.mp hg
    obtain ⟨hmem', hgone⟩ := List.mem_filter.mp he'
    rcases List.mem_append.mp he with he | he
    · obtain ⟨-, hstay⟩ := List.mem_filter.mp he
      rw [gone_congr hid.symm, hgone] at hstay
      cases hstay
    · exact hapart e' hmem' e (List.mem_filter.mp he).1 hid
  · obtain ⟨e', he', hid⟩ := List.mem_map.mp hg
    obtain ⟨hmem', hgone⟩ := List.mem_filter.mp he'
    rcases List.mem_append.mp he with he | he
    · exact hapart e (List.mem_filter.mp he).1 e' hmem' hid.symm
    · obtain ⟨-, hstay⟩ := List.mem_filter.mp he
      rw [gone_congr hid.symm, hgone] at hstay
      cases hstay

/-- A push leaves the marks of the entries that stay. -/
theorem push_marks {e : Entry} {replace front reading : Bool} (hne : i ≠ e.id)
    (hi : i ∈ (c.push e replace front reading).entryIds) :
    i ∈ c.entryIds ∧ (c.push e replace front reading).decisions i = c.decisions i := by
  unfold Channel.push Channel.entryIds at hi
  unfold Channel.push
  dsimp only at hi ⊢
  split at hi
  next hnew =>
    obtain ⟨x, hx, rfl⟩ := List.mem_map.mp hi
    rcases List.eq_or_mem_of_mem_insertIdx hx with h | h
    · exact absurd (congrArg Entry.id h) hne
    · cases h
  next hold =>
    rw [if_neg hold]
    obtain ⟨x, hx, rfl⟩ := List.mem_map.mp hi
    rcases List.eq_or_mem_of_mem_insertIdx hx with h | h
    · exact absurd (congrArg Entry.id h) hne
    · exact ⟨List.mem_map_of_mem h, rfl⟩

/-- An edit that is no push leaves the marks of the entries that stay. -/
theorem edit_marks (h : Edit r op c c') (hw : c.WellFormed) (hno : ¬op.PushesInto c.id)
    (hi : i ∈ c'.entryIds) : i ∈ c.entryIds ∧ c'.decisions i = c.decisions i := by
  have hstay : i ∈ c.entryIds := (edit_entryIds h hw hi).resolve_right fun hp => hno hp.1
  refine ⟨hstay, ?_⟩
  cases h with
  | keep entries cursor marks => rw [marks.1]
  | restart pushes => exact absurd pushes hno
  | insert pushes => exact absurd pushes hno
  | take feeds unread taken =>
    obtain ⟨n, htake⟩ := c.take_eq
    rw [taken, htake]
  | @dropDecisions which drops left =>
    rw [left, hw.dropDecisions] at hi ⊢
    exact if_neg (left_not_dropped hw hi)
  | setAside sets mem set => rw [set]
  | revise revises revised => rw [revised]
  | flush flushes entries cursor marks => rw [marks.1]
  | @rewind entry rewinds rewound =>
    obtain ⟨n, hr⟩ := c.rewind_eq entry
    rw [rewound, hr]
  | jump jumps entries cursor marks => rw [marks.1]

/-- A channel that a push is made into. -/
theorem pushed_marks {id : ChannelId} {f : Channel → Channel}
    (hchs : r'.channels = (r.update id f).channels)
    (hf : ∀ c, (f c).id = c.id ∧ (i ∈ (f c).entryIds →
      i ∈ c.entryIds ∧ (f c).decisions i = c.decisions i))
    (hc' : c' ∈ r'.channels) (hmem : i ∈ c'.entryIds) :
    ∃ c ∈ r.channels, c.id = c'.id ∧ i ∈ c.entryIds ∧ c'.decisions i = c.decisions i := by
  rw [hchs] at hc'
  obtain ⟨c, hc, rfl⟩ := List.mem_map.mp hc'
  split at hmem
  next hid =>
    rw [if_pos hid]
    exact ⟨c, hc, (hf c).1.symm, (hf c).2 hmem⟩
  next hid =>
    rw [if_neg hid]
    exact ⟨c, hc, rfl, hmem, rfl⟩

theorem pushWith_marks (hi : i ≤ r.nextEntry) (id : ChannelId) (text : Text)
    (label : Option String) (replace front : Bool)
    (hc' : c' ∈ (r.pushWith id text label replace front).1.channels) (hmem : i ∈ c'.entryIds) :
    ∃ c ∈ r.channels, c.id = c'.id ∧ i ∈ c.entryIds ∧ c'.decisions i = c.decisions i := by
  unfold pushWith at hc'
  dsimp only at hc'
  split at hc'
  · exact ⟨c', hc', rfl, hmem, rfl⟩
  · have hne : i ≠ r.nextEntry + 1 := by omega
    exact pushed_marks rfl (fun c => ⟨Channel.push_id .., push_marks hne⟩) hc' hmem

@[simp] theorem appended_id (r : Router) (id : ChannelId) (text : Text) (decision heard : Bool)
    (c : Channel) : (r.appended id text decision heard c).id = c.id :=
  Channel.push_id c ⟨r.nextEntry + 1, text, none⟩ false false _

/-- An append moves no older entry and changes no older mark. -/
theorem append_marks (hn : r.ids.Nodup) (hi : i ≤ r.nextEntry) (id : ChannelId) (text : Text)
    (decision heard : Bool) (hc' : c' ∈ (r.append id text decision heard).1.channels)
    (hmem : i ∈ c'.entryIds) :
    ∃ c ∈ r.channels, c.id = c'.id ∧ i ∈ c.entryIds ∧ c'.decisions i = c.decisions i := by
  refine pushed_marks (append_eq hn id text decision heard)
    (fun c => ⟨appended_id .., fun h => ?_⟩) hc' hmem
  have hne : i ≠ r.nextEntry + 1 := by omega
  have hpush : i ∈ (c.push ⟨r.nextEntry + 1, text, none⟩ false false
      (r.reading.any (·.1 == id))).entryIds := h
  obtain ⟨hold, hmark⟩ := push_marks hne hpush
  refine ⟨hold, ?_⟩
  rw [← hmark]
  unfold appended
  cases decision with
  | true => exact Function.update_of_ne hne ..
  | false => rfl

/-- **No operation marks an entry that was given out, or takes the mark of one that stays.** -/
theorem apply_marks (s : Sound r) (hi : i ≤ r.nextEntry) (hc' : c' ∈ (r.apply op).channels)
    (hmem : i ∈ c'.entryIds) :
    ∃ c ∈ r.channels, c.id = c'.id ∧ i ∈ c.entryIds ∧ c'.decisions i = c.decisions i := by
  have hother : (∀ b, ¬op.PushesInto b) →
      ∃ c ∈ r.channels, c.id = c'.id ∧ i ∈ c.entryIds ∧ c'.decisions i = c.decisions i := by
    intro hno
    rcases r.apply_batches s.ids s.batches op with ⟨f, hf, hmap⟩ | hopens | ⟨id, rfl, hfil⟩
    · rw [hmap] at hc'
      obtain ⟨c, hc, rfl⟩ := List.mem_map.mp hc'
      exact ⟨c, hc, (hf c hc).1.symm, edit_marks (hf c hc).2 (s.batches c hc) (hno _) hmem⟩
    · obtain ⟨id, label, hostTab, policy, muted, -, happ⟩ := hopens
      rw [happ, List.mem_append, List.mem_singleton] at hc'
      rcases hc' with hc' | rfl
      · exact ⟨c', hc', rfl, hmem, rfl⟩
      · exact absurd hmem List.not_mem_nil
    · rw [hfil] at hc'
      exact ⟨c', (List.mem_filter.mp hc').1, rfl, hmem, rfl⟩
  cases op with
  | push id text label =>
    have hc' : c' ∈ (r.push id text label).1.channels := hc'
    unfold push at hc'
    split at hc'
    · exact ⟨c', hc', rfl, hmem, rfl⟩
    · exact pushWith_marks hi _ _ _ _ _ hc' hmem
  | pushWith id text label replace front => exact pushWith_marks hi _ _ _ _ _ hc' hmem
  | append id text decision heard => exact append_marks s.ids hi _ _ _ _ hc' hmem
  | _ => exact hother fun b h => h

theorem Marked.apply (m : Marked a i r) (s : Sound r) (op : Op) : Marked a i (r.apply op) := by
  refine ⟨Nat.le_trans m.below (r.nextEntry_le op), fun c' hc' hmem => ?_⟩
  obtain ⟨c, hc, hid, hold, hmark⟩ := apply_marks s m.below hc' hmem
  obtain ⟨ha, hdec⟩ := m.marked c hc hold
  exact ⟨hid.symm.trans ha, hmark.trans hdec⟩

/-- An appended decision is marked. -/
theorem append_marked (s : Sound r) {text : Text} (h : (r.append a text true false).2 = some i) :
    Marked a i (r.apply (.append a text true false)) := by
  have hi := append_id h
  have hbelow : i ≤ (r.apply (.append a text true false)).nextEntry := by
    obtain ⟨c, hc⟩ := append_open h
    rcases r.apply_nextEntry (.append a text true false) with ⟨-, hnone⟩ | ⟨hnext, -⟩
    · exact absurd rfl (hnone a (mem_ids_of_channel hc))
    · omega
  refine ⟨hbelow, fun c' hc' hmem => ?_⟩
  have hc' : c' ∈ (r.append a text true false).1.channels := hc'
  rw [append_eq s.ids a text true false] at hc'
  obtain ⟨c, hc, rfl⟩ := List.mem_map.mp hc'
  split at hmem
  next hid =>
    rw [if_pos hid]
    rw [hi]
    exact ⟨(appended_id ..).trans hid, Function.update_self ..⟩
  next hid =>
    have := s.below c hc i hmem
    omega

/-- In every state of a run that asked it, the decision is marked. -/
theorem asked_marked {ops : List Op} (h : Asked ops a i) : Marked a i (machine.state ops) := by
  obtain ⟨pre, text, seg, rfl, happ⟩ := h
  induction seg using List.reverseRecOn with
  | nil =>
    rw [machine.state_snoc]
    exact append_marked (state_sound pre) happ
  | append_singleton seg op ih =>
    rw [← List.cons_append, ← List.append_assoc, machine.state_snoc]
    exact ih.apply (state_sound _) op

/-! ## What was dropped -/

/-- An entry that is gone never comes back. -/
theorem Gone.apply (g : Gone i r) (s : Sound r) (op : Op) : Gone i (r.apply op) := by
  have hbelow := g.below
  refine ⟨Nat.le_trans g.below (r.nextEntry_le op), ?_⟩
  rcases r.apply_batches s.ids s.batches op with ⟨f, hf, hmap⟩ | hopens | ⟨id, rfl, hfil⟩
  · rw [hmap]
    intro c' hc' hi
    obtain ⟨c, hc, rfl⟩ := List.mem_map.mp hc'
    rcases edit_entryIds (hf c hc).2 (s.batches c hc) hi with h | ⟨-, h⟩
    · exact g.out c hc h
    · omega
  · obtain ⟨id, label, hostTab, policy, muted, -, happ⟩ := hopens
    rw [happ]
    intro c' hc' hi
    rcases List.mem_append.mp hc' with hc' | hc'
    · exact g.out c' hc' hi
    · rw [List.mem_singleton.mp hc'] at hi
      cases hi
  · rw [hfil]
    exact fun c hc => g.out c (List.mem_filter.mp hc).1

/-- A fed id is that of an entry fed from the channel. -/
theorem mem_fedIds {fs : List Feed} : i ∈ fedIds a fs ↔ ∃ e, .entry a e ∈ fs ∧ e.id = i := by
  unfold fedIds
  rw [List.mem_filterMap]
  constructor
  · rintro ⟨f, hf, hid⟩
    cases f with
    | announce => cases hid
    | entry b e =>
      have hid : (if b = a then some e.id else none) = some i := hid
      by_cases hb : b = a
      · rw [if_pos hb] at hid
        exact ⟨e, hb ▸ hf, Option.some.inj hid⟩
      · rw [if_neg hb] at hid
        cases hid
  · rintro ⟨e, hf, rfl⟩
    exact ⟨_, hf, by simp [Feed.idFrom]⟩

/-- What is in no batch is never fed again. -/
theorem Gone.not_fed (g : Gone i r) (s : Sound r) (ops : List Op) :
    i ∉ fedIds a (machine.outFrom r ops) := by
  induction ops generalizing r with
  | nil => exact List.not_mem_nil
  | cons op ops ih =>
    show i ∉ fedIds a (r.feeds op ++ machine.outFrom (r.apply op) ops)
    unfold fedIds at ih ⊢
    rw [List.filterMap_append, List.mem_append, not_or]
    refine ⟨fun hi => ?_, ih (g.apply s op) (apply_sound s op)⟩
    obtain ⟨e, hf, rfl⟩ := mem_fedIds.mp hi
    obtain ⟨c, es, hc, hun, -⟩ := fed_takes (feeds_single hf)
    have hmem : e ∈ c.unread := hun ▸ List.mem_cons_self
    exact g.out c (mem_of_channel hc)
      (List.mem_map_of_mem (List.mem_of_mem_drop (Channel.mem_unread.mp hmem).1))

/-- A decision that was heard or settled: not stored, and no longer in front. -/
theorem goes_iff (h : which ≠ .all) (before : Bool) : which.goes before false = before := by
  cases which with
  | all => exact absurd rfl h
  | heard => exact Bool.and_true before
  | settled => rfl

/-- A marked decision goes exactly from behind the cursor. -/
theorem mem_dropped_iff (h : which ≠ .all) (hd : c.decisions i = some false) :
    i ∈ c.dropped which ↔ i ∈ c.readIds := by
  have hgone : ∀ (before : Bool) (e : Entry), e.id = i → c.gone which before e = before := by
    rintro before e rfl
    unfold Channel.gone
    rw [hd, Option.any_some, goes_iff h]
  unfold Channel.dropped Channel.goneIds Channel.readIds
  rw [List.mem_append]
  constructor
  · rintro (hi | hi)
    · obtain ⟨e, he, rfl⟩ := List.mem_map.mp hi
      exact List.mem_map_of_mem (List.mem_filter.mp he).1
    · obtain ⟨e, he, hid⟩ := List.mem_map.mp hi
      have := (List.mem_filter.mp he).2
      rw [hgone false e hid] at this
      cases this
  · intro hi
    obtain ⟨e, he, hid⟩ := List.mem_map.mp hi
    exact .inl (hid ▸ List.mem_map_of_mem (List.mem_filter.mpr ⟨he, hgone true e hid⟩))

/-- The ids a batch has left after `drop_decisions`. -/
theorem dropped_entryIds (hw : c.WellFormed) :
    i ∈ (c.dropDecisions which).1.entryIds ↔ i ∈ c.entryIds ∧ i ∉ c.dropped which := by
  rw [hw.dropDecisions]
  constructor
  · intro hi
    exact ⟨(List.Sublist.map _ (left_subset which)).subset hi, left_not_dropped hw hi⟩
  · rintro ⟨hi, hgone⟩
    exact mem_left_ids which hi hgone

/-- **The drop**: a decision of `a` that stands in front of no cursor is gone. -/
theorem drop_gone (s : Sound r) (m : Marked a i r) (h : which ≠ .all)
    (hread : ∀ c, r.channel a = some c → i ∉ c.aheadIds) :
    Gone i (r.apply (.dropDecisions a which)) := by
  refine ⟨m.below, fun c' hc' hi => ?_⟩
  have hchs : c' ∈ (r.update a fun c => (c.dropDecisions which).1).channels := hc'
  obtain ⟨c, hc, rfl⟩ := List.mem_map.mp hchs
  have hw := s.batches c hc
  split at hi
  next hid =>
    obtain ⟨hmem, hstays⟩ := (dropped_entryIds hw).mp hi
    have hchan : r.channel a = some c := hid ▸ channel_of_mem s.ids hc
    rw [mem_dropped_iff h (m.marked c hc hmem).2] at hstays
    rw [entryIds_split, List.mem_append] at hmem
    exact hmem.elim hstays (hread c hchan)
  next hid => exact hid (m.marked c hc hi).1

/-! ## What was not dropped -/

/-- An entry is in front once the cursor stands on it. -/
theorem unread_at {pos : Nat} (hpos : readIndex c (some i) = some pos) (haside : i ∉ c.aside) :
    ∃ e, e.id = i ∧ (Channel.unread { c with cursor := pos }).head? = some e := by
  obtain ⟨hlt, hid, -⟩ := List.findIdx?_eq_some_iff_getElem.mp hpos
  refine ⟨c.entries[pos], by simpa using hid, ?_⟩
  have hid' : c.entries[pos].id = i := by simpa using hid
  unfold Channel.unread
  rw [List.drop_eq_getElem_cons hlt, List.filter_cons_of_pos]
  · rfl
  · simpa [hid'] using haside

theorem takeBack_channel (hc : r.channel a = some c) (hi : i ∈ c.entryIds) :
    (r.apply (.setAside a i false)).channel a = some { c with aside := c.aside.erase i } := by
  obtain ⟨e, he, hid⟩ := Channel.mem_entryIds.mp hi
  have hany : c.entries.any (fun e => e.id == i) = true :=
    List.any_eq_true.mpr ⟨e, he, by simpa using hid⟩
  show (r.setAside a i false).1.channel a = _
  unfold setAside
  rw [hc]
  dsimp only
  rw [if_pos hany]
  exact channel_update_self (fun c => rfl) hc

theorem unmute_channel (hc : r.channel a = some c) :
    (r.apply (.setMuted a false)).channel a = some { c with muted := false } :=
  channel_update_self (r := { r with muted := r.muted.erase a }) (fun _ => rfl) hc

/-- A step to an entry puts the cursor on it and gives the channel the floor. -/
theorem stepTo_spec {pos : Nat} (hc : r.channel a = some c)
    (hpos : readIndex c (some i) = some pos) :
    (r.apply (.stepTo a i)).channel a = some { c with cursor := pos } ∧
      (r.apply (.stepTo a i)).active = some a := by
  have hne : ¬c.entries.isEmpty = true := by
    obtain ⟨hlt, -⟩ := List.findIdx?_eq_some_iff_getElem.mp hpos
    intro hnil
    rw [List.isEmpty_iff.mp hnil] at hlt
    cases hlt
  have hmove : (r.update a fun d => { d with
      cursor := pos, replaying := false || d.replaying }).channel a =
      some { c with cursor := pos } := channel_update_self (fun _ => rfl) hc
  show (r.readAt a (some i) false).1.channel a = _ ∧ (r.readAt a (some i) false).1.active = _
  unfold readAt
  rw [hc]
  dsimp only
  rw [if_neg hne, hpos]
  dsimp only
  split <;> exact ⟨hmove, rfl⟩

/-- **Any entry of a batch can be read again**: the user steps to it. -/
theorem fed_again (ops : List Op) (hc : (machine.state ops).channel a = some c)
    (hi : i ∈ c.entryIds) : ∃ seg, i ∈ fedIds a (machine.outFrom (machine.state ops) seg) := by
  refine ⟨[.setAside a i false, .setMuted a false, .stepTo a i, .clearAnnounce, .nextFeed], ?_⟩
  obtain ⟨e₀, he₀, hid₀⟩ := Channel.mem_entryIds.mp hi
  have hc₁ := takeBack_channel hc hi
  have hc₂ := unmute_channel hc₁
  obtain ⟨pos, hpos⟩ : ∃ pos, readIndex c (some i) = some pos := by
    have hany : (c.entries.findIdx? fun x => x.id == i).isSome = true := by
      rw [List.findIdx?_isSome, List.any_eq_true]
      exact ⟨e₀, he₀, by simpa using hid₀⟩
    exact Option.isSome_iff_exists.mp hany
  obtain ⟨hc₃, hact⟩ := stepTo_spec (i := i) hc₂ hpos
  obtain ⟨e, hid, hhead⟩ := unread_at (c := { c with aside := c.aside.erase i, muted := false })
    hpos (Finset.notMem_erase i c.aside)
  -- the state before the last call is one of a run
  have hrun : HoldActive (machine.state
    (ops ++ [.setAside a i false, .setMuted a false, .stepTo a i,
      .clearAnnounce])) := state_holdActive _
  rw [machine.state_append] at hrun
  have hpend := List.length_pos_of_mem (List.mem_of_mem_head? (Option.mem_def.mpr hhead))
  have haud : (((((machine.state ops).apply (.setAside a i false)).apply (.setMuted a false)).apply
      (.stepTo a i)).apply .clearAnnounce).audible a = true :=
    audible_iff.mpr ⟨_, hc₃, hpend, rfl⟩
  obtain ⟨c₄, e₄, hc₄, hhead₄, hfeed⟩ := nextFeed_active hrun hact haud rfl
  obtain rfl := Option.some.inj (hc₃.symm.trans hc₄)
  obtain rfl := Option.some.inj (hhead.symm.trans hhead₄)
  refine mem_fedIds.mpr ⟨e, List.mem_append_left [] ?_, hid⟩
  exact Option.mem_toList.mpr hfeed

/-- **Decided decisions are never read again**, exactly when none of those that were read
stands in front of the cursor at the call. -/
theorem decided_never_fed (ops : List Op) (a : ChannelId) (h : which ≠ .all) :
    (∀ i, Asked ops a i → i ∈ fedIds a (machine.out ops) → ∀ seg,
        i ∉ fedIds a (machine.outFrom (machine.state (ops ++ [.dropDecisions a which])) seg)) ↔
      ∀ i, Asked ops a i → i ∈ fedIds a (machine.out ops) →
        ∀ c, (machine.state ops).channel a = some c → i ∉ c.aheadIds := by
  have s := state_sound ops
  constructor
  · intro hnever i hask hfed c hc hahead
    have hw := s.batches c (mem_of_channel hc)
    have hmem : i ∈ c.entryIds := by
      rw [entryIds_split]
      exact List.mem_append_right _ hahead
    have hd := ((asked_marked hask).marked c (mem_of_channel hc) hmem).2
    have hstays : i ∉ c.dropped which := by
      rw [mem_dropped_iff h hd]
      have hn := hw.nodup
      rw [entryIds_split] at hn
      exact fun hread => (List.disjoint_of_nodup_append hn) hread hahead
    have hid : ∀ c : Channel, (c.dropDecisions which).1.id = c.id := fun c => by
      obtain ⟨es, n, d, b, heq⟩ := c.dropDecisions_eq which
      rw [heq]
    have hc' : (machine.state (ops ++ [.dropDecisions a which])).channel a =
        some (c.dropDecisions which).1 := by
      rw [machine.state_snoc]
      exact channel_update_self hid hc
    obtain ⟨seg, hseg⟩ := fed_again _ hc' ((dropped_entryIds hw).mpr ⟨hmem, hstays⟩)
    exact hnever i hask hfed seg hseg
  · intro hread i hask hfed seg
    have hgone := drop_gone s (asked_marked hask) h (hread i hask hfed)
    rw [machine.state_snoc]
    exact hgone.not_fed (apply_sound s _) seg

/-- A decision that was read and then settled is not in a replay. -/
theorem settled_never_fed :
    1 ∉ fedIds "a" (machine.outFrom (machine.state ([.openChannel "a" none none none,
      .append "a" [] true false, .nextFeed] ++ [.dropDecisions "a" .settled]))
        [.replay "a", .nextFeed]) := by
  refine (decided_never_fed [.openChannel "a" none none none, .append "a" [] true false, .nextFeed]
    "a" (show Resolved.settled ≠ .all by decide)).mpr ?_ 1 ?_ (by decide) _
  · intro i _ _ c hc
    have hnone : ((machine.state [.openChannel "a" none none none, .append "a" [] true false,
        .nextFeed]).channel "a").map Channel.aheadIds = some [] := by decide
    rw [hc] at hnone
    rw [Option.some.inj hnone]
    exact List.not_mem_nil
  · exact ⟨[.openChannel "a" none none none], [], [.nextFeed], rfl, by decide⟩

/-- In a replay a decision that was read stands in front of the cursor: `drop_decisions`
leaves it there, and it is read again. -/
theorem replayed_fed :
    ¬∀ (ops : List Op) (a : ChannelId) (which : Resolved), which ≠ .all → ∀ i, Asked ops a i →
      i ∈ fedIds a (machine.out ops) → ∀ seg,
        i ∉ fedIds a (machine.outFrom (machine.state (ops ++ [.dropDecisions a which])) seg) := by
  intro h
  refine h [.openChannel "a" none none none, .append "a" [] true false, .nextFeed, .replay "a"] "a"
    .heard (by decide) 1 ?_ (by decide) [.nextFeed] (by decide)
  exact ⟨[.openChannel "a" none none none], [], [.nextFeed, .replay "a"], rfl, by decide⟩

end Router

end Sonara.L2
