import Sonara.L2.Entries

/-!
# Entries are conserved, and fed in order

`Sound` is what every operation keeps: unique ids, well-formed batches, names of open
channels only. From it, three facts about runs:

* an unread entry stops being unread in one of seven ways (`Leaves`);
* while nothing moves its cursor, a channel's entries are fed in batch order
  (`FedInOrder`), by induction on the run;
* what `pick` returns has an entry to take.
-/

namespace Sonara.L2

open Sonara (Text)

namespace Router

variable {r r' : Router} {a : ChannelId} {c c' : Channel} {op : Op} {i : Nat}

/-- What every operation keeps. -/
structure Sound (r : Router) : Prop where
  ids : r.ids.Nodup
  batches : ∀ c ∈ r.channels, c.WellFormed
  below : ∀ c ∈ r.channels, ∀ i ∈ c.entryIds, i ≤ r.nextEntry
  apart : ∀ c ∈ r.channels, ∀ c' ∈ r.channels, ∀ i ∈ c.entryIds, i ∈ c'.entryIds → c.id = c'.id
  named : Named r

theorem new_sound : Sound new where
  ids := List.nodup_nil
  batches _ h := nomatch h
  below _ h := nomatch h
  apart _ h := nomatch h
  named := by
    refine ⟨?_, ?_, ?_, ?_, ?_, ?_, ?_, ?_, ?_⟩ <;> intro a h <;> exact nomatch h

theorem nextEntry_le (r : Router) (op : Op) : r.nextEntry ≤ (r.apply op).nextEntry := by
  rcases r.apply_nextEntry op with ⟨h, -⟩ | ⟨h, -⟩ <;> omega

/-- A push names one channel. -/
theorem pushesInto_unique {a b : ChannelId} (ha : op.PushesInto a) (hb : op.PushesInto b) :
    a = b := by
  cases op <;> first | exact ha.symm.trans hb | exact ha.elim

/-- The router after a close: every field forgets `id`. -/
theorem close_eq (h : r.isOpen a = true) : ∃ tab hold, r.apply (.close a) =
    { r with
      channels := r.channels.filter (fun c => c.id != a)
      closedReaderTab := tab
      active := if r.active = some a then none else r.active
      lastActive := if r.lastActive = some a then none else r.lastActive
      focus := if r.focus = some a then none else r.focus
      announce := if r.announce.map Switch.channel = some a then none else r.announce
      reading := if r.reading.map Prod.fst = some a then none else r.reading
      suppressed := Function.update r.suppressed a none
      priority := r.priority.filter (· != a)
      authorized := r.authorized.erase a
      hold := hold } ∧
    hold = if r.hold.map Prod.fst = some a then none else r.hold := by
  obtain ⟨closed, hc⟩ := isOpen_iff.mp h
  show ∃ tab hold, (r.close a).1 = _ ∧ _
  unfold close endHold
  rw [hc]
  dsimp only
  by_cases hl : r.lastReader = some a <;> by_cases hh : r.hold.map Prod.fst = some a <;>
    simp only [hl, hh, if_true, if_false, or_true, reduceCtorEq, or_false] <;>
    exact ⟨_, _, rfl, rfl⟩

/-- What a forgotten name was. -/
theorem forgotten {β : Type} {o : Option β} {f : β → ChannelId} {b : ChannelId}
    (h : (if o.map f = some a then none else o).map f = some b) : o.map f = some b ∧ b ≠ a := by
  split at h
  · cases h
  next hne => exact ⟨h, fun he => hne (he ▸ h)⟩

/-- The names that a close leaves. -/
theorem close_named (n : Named r) (h : r.isOpen a = true) : Named (r.apply (.close a)) := by
  obtain ⟨tab, hold, heq, rfl⟩ := close_eq h
  have hids : ∀ {b}, b ∈ r.ids → b ≠ a → b ∈ (r.apply (.close a)).ids := by
    intro b hb hne
    rw [heq]
    obtain ⟨c, hmem, rfl⟩ := List.mem_map.mp hb
    exact List.mem_map_of_mem (List.mem_filter.mpr ⟨hmem, by simpa using hne⟩)
  have hid : ∀ {o : Option ChannelId} {b}, (if o = some a then none else o) = some b →
      o = some b ∧ b ≠ a := by
    intro o b hb
    have := forgotten (o := o) (f := fun x => x) (a := a) (b := b) (by simpa using hb)
    simpa using this
  constructor <;> intro b hb <;> rw [heq] at hb
  case active => exact hids (n.active b (hid hb).1) (hid hb).2
  case lastActive => exact hids (n.lastActive b (hid hb).1) (hid hb).2
  case focus => exact hids (n.focus b (hid hb).1) (hid hb).2
  case announce => exact hids (n.announce b (forgotten hb).1) (forgotten hb).2
  case reading => exact hids (n.reading b (forgotten hb).1) (forgotten hb).2
  case hold => exact hids (n.hold b (forgotten hb).1) (forgotten hb).2
  case priority =>
    obtain ⟨hmem, hne⟩ := List.mem_filter.mp hb
    exact hids (n.priority b hmem) (by simpa using hne)
  case authorized =>
    obtain ⟨hne, hmem⟩ := Finset.mem_erase.mp hb
    exact hids (n.authorized b hmem) hne
  case suppressed =>
    dsimp only at hb
    by_cases hne : b = a
    · rw [hne, Function.update_self] at hb
      cases hb
    · rw [Function.update_of_ne hne] at hb
      exact hids (n.suppressed b hb) hne

/-- Closing an unknown channel changes nothing. -/
theorem close_closed (h : ¬r.isOpen a = true) : r.apply (.close a) = r := by
  have hnone : r.channel a = none := Option.not_isSome_iff_eq_none.mp h
  show (r.close a).1 = r
  unfold close
  rw [hnone]

/-- Edits of the open channels keep the router sound. -/
theorem edits_sound (s : Sound r) (hed : Edits op r r') (hle : r.nextEntry ≤ r'.nextEntry)
    (hnext : ∀ c ∈ r.channels, op.PushesInto c.id → r'.nextEntry = r.nextEntry + 1)
    (hnamed : (∀ b ∈ r.ids, b ∈ r'.ids) → Named r') : Sound r' := by
  obtain ⟨f, hf, hmap⟩ := hed
  have hids : r'.ids = r.ids := by
    unfold Router.ids
    rw [hmap, List.map_map]
    exact List.map_congr_left fun c hc => (hf c hc).1
  have hnew : ∀ c ∈ r.channels, ∀ i ∈ (f c).entryIds,
      i ∈ c.entryIds ∨ op.PushesInto c.id ∧ i = r.nextEntry + 1 := fun c hc i hi =>
    edit_entryIds (hf c hc).2 (s.batches c hc) hi
  refine ⟨hids ▸ s.ids, ?_, ?_, ?_, hnamed fun b hb => hids ▸ hb⟩
  · rw [hmap]
    intro c' hc'
    obtain ⟨c, hc, rfl⟩ := List.mem_map.mp hc'
    exact edit_wellFormed (hf c hc).2 (s.batches c hc) (s.below c hc)
  · rw [hmap]
    intro c' hc' i hi
    obtain ⟨c, hc, rfl⟩ := List.mem_map.mp hc'
    rcases hnew c hc i hi with hi | ⟨hpush, rfl⟩
    · exact Nat.le_trans (s.below c hc i hi) hle
    · exact Nat.le_of_eq (hnext c hc hpush).symm
  · rw [hmap]
    intro c₁' h₁ c₂' h₂ i hi₁ hi₂
    obtain ⟨c₁, hc₁, rfl⟩ := List.mem_map.mp h₁
    obtain ⟨c₂, hc₂, rfl⟩ := List.mem_map.mp h₂
    rw [(hf c₁ hc₁).1, (hf c₂ hc₂).1]
    rcases hnew c₁ hc₁ i hi₁ with hi₁ | ⟨hpush₁, he₁⟩ <;>
      rcases hnew c₂ hc₂ i hi₂ with hi₂ | ⟨hpush₂, he₂⟩
    · exact s.apart c₁ hc₁ c₂ hc₂ i hi₁ hi₂
    -- The new id is above every id given out so far.
    · have := s.below c₁ hc₁ i hi₁
      omega
    · have := s.below c₂ hc₂ i hi₂
      omega
    · exact pushesInto_unique hpush₁ hpush₂

/-- Opening a channel keeps the router sound. -/
theorem opens_sound (s : Sound r) {id : ChannelId} (hid : c.id = id) (hempty : c.entries = [])
    (hw : c.WellFormed) (hfresh : id ∉ r.ids) (hc : r'.channels = r.channels ++ [c])
    (hle : r.nextEntry ≤ r'.nextEntry) (hnamed : (∀ b ∈ r.ids, b ∈ r'.ids) → Named r') :
    Sound r' := by
  have hids : r'.ids = r.ids ++ [id] := by
    unfold Router.ids
    rw [hc, List.map_append, ← hid]
    rfl
  have hno : c.entryIds = [] := by
    unfold Channel.entryIds
    rw [hempty]
    rfl
  refine ⟨?_, ?_, ?_, ?_, hnamed fun b hb => ?_⟩
  · rw [hids]
    exact s.ids.append (List.nodup_singleton id) (List.disjoint_singleton.mpr hfresh)
  · rw [hc]
    intro c' hc'
    rcases List.mem_append.mp hc' with hc' | hc'
    · exact s.batches c' hc'
    · rw [List.mem_singleton.mp hc']
      exact hw
  · rw [hc]
    intro c' hc' i hi
    rcases List.mem_append.mp hc' with hc' | hc'
    · exact Nat.le_trans (s.below c' hc' i hi) hle
    · rw [List.mem_singleton.mp hc', hno] at hi
      cases hi
  · rw [hc]
    intro c₁ h₁ c₂ h₂ i hi₁ hi₂
    rcases List.mem_append.mp h₁ with h₁ | h₁
    · rcases List.mem_append.mp h₂ with h₂ | h₂
      · exact s.apart c₁ h₁ c₂ h₂ i hi₁ hi₂
      · rw [List.mem_singleton.mp h₂, hno] at hi₂
        cases hi₂
    · rw [List.mem_singleton.mp h₁, hno] at hi₁
      cases hi₁
  · rw [hids]
    exact List.mem_append_left _ hb

/-- Closing a channel keeps the router sound. -/
theorem closes_sound (s : Sound r) {id : ChannelId}
    (hfil : (r.apply (.close id)).channels = r.channels.filter fun c => c.id != id) :
    Sound (r.apply (.close id)) := by
  have hsub : ∀ {c}, c ∈ (r.apply (.close id)).channels → c ∈ r.channels := fun h =>
    (List.mem_filter.mp (hfil ▸ h)).1
  refine ⟨?_, fun c hc => s.batches c (hsub hc), fun c hc i hi => ?_,
    fun c hc c' hc' => s.apart c (hsub hc) c' (hsub hc'), ?_⟩
  · unfold Router.ids
    rw [hfil]
    exact (List.Sublist.map _ List.filter_sublist).nodup s.ids
  · exact Nat.le_trans (s.below c (hsub hc) i hi) (r.nextEntry_le _)
  · by_cases hopen : r.isOpen id = true
    · exact close_named s.named hopen
    · rw [close_closed hopen]
      exact s.named

/-- **Every operation keeps `Sound`.** -/
theorem apply_sound (s : Sound r) (op : Op) : Sound (r.apply op) := by
  have hle := r.nextEntry_le op
  rcases r.apply_batches s.ids s.batches op with hed | hopens | ⟨id, rfl, hfil⟩
  · refine edits_sound s hed hle (fun c hc hpush => ?_) fun hids => ?_
    · rcases r.apply_nextEntry op with ⟨-, hno⟩ | ⟨h, -⟩
      · exact absurd hpush (hno c.id (List.mem_map_of_mem hc))
      · exact h
    · by_cases hclose : ∃ id, op = .close id
      · obtain ⟨id, rfl⟩ := hclose
        by_cases hopen : r.isOpen id = true
        · exact close_named s.named hopen
        · rw [close_closed hopen]
          exact s.named
      · exact (apply_naming fun id h => hclose ⟨id, h⟩).named hids s.named
  · obtain ⟨id, label, hostTab, policy, muted, hopen, happ⟩ := hopens
    have hfresh : id ∉ r.ids := fun h => by
      rw [mem_ids_iff.mp h] at hopen
      cases hopen
    have hnew := Channel.new_wellFormed id label hostTab policy
    refine opens_sound s (c := { Channel.new id label hostTab policy with muted := muted }) rfl rfl
      ⟨hnew.cursor_le, hnew.nodup, hnew.decisions, hnew.aside⟩
      hfresh happ hle fun hids => ?_
    -- A close opens nothing: the channels would be more.
    refine (apply_naming fun b h => ?_).named hids s.named
    subst h
    by_cases hb : r.isOpen b = true
    · obtain ⟨tab, hold, heq, -⟩ := close_eq hb
      have hlen : (r.channels.filter fun c => c.id != b).length = _ :=
        congrArg List.length ((congrArg Router.channels heq).symm.trans happ)
      have := List.length_filter_le (fun c => c.id != b) r.channels
      rw [List.length_append, List.length_singleton] at hlen
      omega
    · rw [close_closed hb] at happ
      have hlen := congrArg List.length happ
      rw [List.length_append, List.length_singleton] at hlen
      omega
  · exact closes_sound s hfil

theorem Sound.entryIds_nodup (s : Sound r) : (r.channels.flatMap Channel.entryIds).Nodup := by
  refine List.nodup_flatMap.mpr ⟨fun c hc => (s.batches c hc).nodup, ?_⟩
  have hne : r.channels.Pairwise fun c c' => c.id ≠ c'.id := List.pairwise_map.mp s.ids
  refine hne.imp_of_mem fun {c c'} hc hc' hid i hi hi' => ?_
  exact hid (s.apart c hc c' hc' i hi hi')

/-- Every state a run reaches is sound. -/
theorem state_sound (ops : List Op) : Sound (machine.state ops) :=
  machine.run_induction (P := fun _ r _ => Sound r) new_sound (fun _ op s => apply_sound s op) ops

/-! ## How an unread entry leaves -/

/-- How the entry `i` of `c`, unread before `op`, stops being unread. -/
inductive Leaves (r : Router) (op : Op) (c : Channel) (i : Nat) : Prop
  | fed {e : Entry} (feeds : r.feeds op = [.entry c.id e]) (this : e.id = i)
  | aside (sets : op = .setAside c.id i true)
  | dropped {which : Resolved} (drops : op = .dropDecisions c.id which)
      (decision : (c.decisions i).isSome)
  | replaced (pushes : op.PushesInto c.id) (replaces : op.replaces c = true)
  | flushed (flushes : op.Flushes c.id)
  | passed {entry : Nat} (moves : op = .replayFrom c.id (some entry) ∨ op = .stepTo c.id entry)
      (before : c.Before i entry)
  | closed (closes : op = .close c.id)

/-- A batch with the same ids at the same cursor has the same entries unread. -/
theorem unread_same (hids : c'.entryIds = c.entryIds) (hcur : c'.cursor = c.cursor)
    (haside : c'.aside = c.aside) (hi : i ∈ c.unreadIds) : i ∈ c'.unreadIds := by
  rw [mem_unreadIds, aheadIds_eq] at hi ⊢
  rwa [hids, hcur, haside]

/-- An entry set aside nowhere is unread once the cursor stands before it. -/
theorem insert_unread (hw : c.WellFormed) {e : Entry} {front : Bool}
    (he : c'.entries = (c.insert e front).entries) (hcur : c'.cursor = c.cursor) :
    c'.aheadIds.Perm (e.id :: c.aheadIds) := by
  have hlen := hw.read_length
  have hahead : c'.ahead = if front then e :: c.ahead else c.ahead ++ [e] := by
    unfold Channel.ahead
    rw [he, hcur]
    unfold Channel.insert
    cases front with
    | true =>
      simp only [if_true]
      rw [← hlen, List.drop_left]
      rw [hlen]
      rfl
    | false =>
      simp only [Bool.false_eq_true, if_false]
      exact List.drop_append_of_le_length hw.cursor_le
  unfold Channel.aheadIds
  rw [hahead]
  cases front with
  | true => exact List.Perm.refl _
  | false =>
    simp only [Bool.false_eq_true, if_false]
    rw [List.map_append]
    exact List.perm_append_singleton _ _

/-- An edit keeps an unread entry unread, or the entry leaves. -/
theorem edit_unread (h : Edit r op c c') (hw : c.WellFormed) (hi : i ∈ c.unreadIds) :
    i ∈ c'.unreadIds ∨ Leaves r op c i := by
  obtain ⟨hahead, hnot⟩ := mem_unreadIds.mp hi
  have hne : c.unread ≠ [] := fun h => by
    unfold Channel.unreadIds at hi
    rw [h] at hi
    cases hi
  have hids : c'.entries = c.entries → c'.entryIds = c.entryIds := fun h =>
    congrArg (List.map Entry.id) h
  cases h with
  | keep entries cursor marks => exact .inl (unread_same (hids entries) cursor marks.2 hi)
  | restart pushes fresh starts entries cursor aside decisions =>
    refine .inr (.replaced pushes ?_)
    unfold restarts at starts
    rcases Bool.or_eq_true_iff.mp starts with h | h
    · exact h
    -- Else the channel was caught up.
    · simp only [Bool.and_eq_true] at h
      exact absurd (Channel.caughtUp_iff.mp h.1.1) hne
  | insert pushes fresh goesOn stores entries cursor aside decisions =>
    cases hst : r.stores c op with
    | true => exact absurd (stores hst).2 hne
    | false =>
      rw [hst] at cursor
      refine .inl (mem_unreadIds.mpr ⟨?_, aside ▸ hnot⟩)
      exact (insert_unread hw entries cursor).mem_iff.mpr (List.mem_cons_of_mem _ hahead)
  | @take e es feeds unread taken =>
    by_cases hie : e.id = i
    · exact .inr (.fed feeds hie)
    obtain ⟨passed, tail, hsplit, hpassed, htake⟩ := Channel.take_split unread
    refine .inl (mem_unreadIds.mpr ⟨?_, ?_⟩)
    · have htail : c'.ahead = tail := by
        unfold Channel.ahead at hsplit ⊢
        rw [taken, htake]
        dsimp only
        rw [Nat.add_assoc, ← List.drop_drop, hsplit, ← List.singleton_append, ← List.append_assoc]
        exact List.drop_left' (by rw [List.length_append, List.length_singleton])
      unfold Channel.aheadIds at hahead ⊢
      rw [hsplit, List.map_append, List.mem_append, List.map_cons, List.mem_cons] at hahead
      rw [htail]
      rcases hahead with h | h | h
      · obtain ⟨x, hx, rfl⟩ := List.mem_map.mp h
        exact absurd (hpassed x hx) hnot
      · exact absurd h.symm hie
      · exact h
    · rw [taken, htake]
      exact hnot
  | @dropDecisions which drops left =>
    obtain ⟨e, he, rfl⟩ := List.mem_map.mp hahead
    by_cases hg : c.gone which false e = true
    · refine .inr (.dropped drops ?_)
      unfold Channel.gone at hg
      obtain ⟨stored, h, -⟩ := Option.any_eq_true _ _ |>.mp hg
      rw [h]
      rfl
    · refine .inl (mem_unreadIds.mpr ⟨?_, ?_⟩)
      · rw [left, hw.dropDecisions]
        unfold Channel.aheadIds Channel.ahead
        rw [List.drop_left]
        exact List.mem_map_of_mem (List.mem_filter.mpr ⟨he, by simpa using hg⟩)
      · rw [left, hw.dropDecisions]
        exact fun h => hnot (Finset.mem_filter.mp h).1
  | @setAside entry aside sets mem set =>
    by_cases hthis : aside = true ∧ entry = i
    · obtain ⟨rfl, rfl⟩ := hthis
      exact .inr (.aside sets)
    · refine .inl (mem_unreadIds.mpr ⟨?_, ?_⟩)
      · rw [set]
        exact hahead
      · rw [set]
        dsimp only
        split
        next hon =>
          intro h
          rcases Finset.mem_insert.mp h with h | h
          · exact hthis ⟨hon, h.symm⟩
          · exact hnot h
        · exact fun h => hnot (Finset.mem_of_mem_erase h)
  | revise revises revised =>
    refine .inl (unread_same ?_ (by rw [revised]) (by rw [revised]) hi)
    rw [revised]
    exact reviseEntries_ids _ _ c.entries
  | flush flushes entries cursor marks => exact .inr (.flushed flushes)
  | rewind rewinds rewound =>
    rw [rewound]
    unfold Channel.rewind
    split
    · refine .inl (mem_unreadIds.mpr ⟨?_, hnot⟩)
      rw [aheadIds_eq] at hahead ⊢
      exact (List.drop_sublist_drop_left c.entryIds (Nat.sub_le _ 1)).subset hahead
    · exact .inl hi
  | @jump pos jumps entries cursor marks place =>
    by_cases hbefore : i ∈ c.entryIds.take pos
    · rcases place with rfl | ⟨entry, moves, hpos⟩
      · cases hbefore
      · exact .inr (.passed moves ⟨pos, hpos, hbefore⟩)
    · refine .inl (mem_unreadIds.mpr ⟨?_, marks.2 ▸ hnot⟩)
      rw [aheadIds_eq, hids entries, cursor]
      have hmem : i ∈ c.entryIds := by
        rw [entryIds_split]
        exact List.mem_append_right _ hahead
      rw [← List.take_append_drop pos c.entryIds] at hmem
      exact (List.mem_append.mp hmem).resolve_left hbefore

/-- An id new in a batch is unread, or was stored read. -/
theorem edit_new (h : Edit r op c c') (hw : c.WellFormed)
    (hbelow : ∀ i ∈ c.entryIds, i ≤ r.nextEntry)
    (hi : i ∈ c'.entryIds) (hno : i ∉ c.entryIds) : i ∈ c'.unreadIds ∨ r.stores c op = true := by
  cases hst : r.stores c op with
  | true => exact .inr rfl
  | false =>
    refine .inl ?_
    have hnew := (edit_entryIds h hw hi).resolve_left hno
    have hsame : c'.entries = c.entries → i ∈ c.entryIds := fun he => by
      unfold Channel.entryIds at hi ⊢
      rwa [he] at hi
    cases h with
    | restart pushes fresh starts entries cursor aside decisions =>
      rw [hst] at cursor
      refine mem_unreadIds.mpr ⟨?_, aside ▸ Finset.notMem_empty _⟩
      rw [aheadIds_eq, cursor]
      exact hi
    | insert pushes fresh goesOn stores entries cursor aside decisions =>
      rw [hst] at cursor
      refine mem_unreadIds.mpr ⟨?_, fun h => ?_⟩
      · rw [(insert_unread hw entries cursor).mem_iff, hnew.2, fresh]
        exact List.mem_cons_self
      · have := hbelow i (hw.aside i (aside ▸ h))
        omega
    | keep entries cursor marks => exact absurd (hsame entries) hno
    | flush flushes entries cursor marks => exact absurd (hsame entries) hno
    | jump jumps entries cursor marks place => exact absurd (hsame entries) hno
    | take feeds unread taken =>
      obtain ⟨n, htake⟩ := c.take_eq
      exact absurd (hsame (by rw [taken, htake])) hno
    | setAside sets mem set => exact absurd (hsame (by rw [set])) hno
    | rewind rewinds rewound =>
      obtain ⟨n, hr⟩ := c.rewind_eq _
      exact absurd (hsame (by rw [rewound, hr])) hno
    | revise revises revised =>
      have hpush := hnew.1
      rw [revises] at hpush
      exact hpush.elim
    | dropDecisions drops left =>
      have hpush := hnew.1
      rw [drops] at hpush
      exact hpush.elim

/-! ## The order entries are fed in -/

/-- The entry of `a` that a feed hands over. -/
def Feed.idFrom (a : ChannelId) : Feed → Option Nat
  | .announce .. => none
  | .entry b e => if b = a then some e.id else none

/-- The entries of `a` handed over, in order. -/
def fedIds (a : ChannelId) (fs : List Feed) : List Nat := fs.filterMap (Feed.idFrom a)

/-- The operation moves the cursor of `a` otherwise than by feeding: a user's move or a
rewind that succeeds, a skip, a text stored read, a close. -/
def Moves (r : Router) (a : ChannelId) : Op → Prop
  | .nextChannel => r.nextChannel.2 = some (a, true)
  | .replay id => id = a ∧ (r.replay id).2 = true
  | .replayFrom id entry => id = a ∧ (r.replayFrom id entry).2 = true
  | .stepTo id entry => id = a ∧ (r.stepTo id entry).2 = true
  | .rewind id entry => id = a ∧ (r.rewind id entry).2 = true
  | .flush id => id = some a ∨ id = none
  | .close id => id = a
  | op => op.PushesInto a ∧ ∃ c, r.channel a = some c ∧ r.stores c op = true

/-- `fed` was fed from `a` in batch order: `c₀` was the batch before, `c` is it now. -/
structure FedInOrder (c₀ c : Channel) (fed : List Nat) (wasAside : Nat → Prop) : Prop where
  once : fed.Nodup
  fresh : ∀ i ∈ fed, i ∉ c₀.readIds
  /-- What the cursor passed since are the ids fed, as far as they are still in the
  batch, in this order, and ids that were set aside. -/
  order : ∃ old new, c.readIds = old ++ new ∧ old.Sublist c₀.readIds ∧
    new.filter (· ∈ fed) = fed.filter (· ∈ c.entryIds) ∧ ∀ i ∈ new, i ∈ fed ∨ wasAside i

/-- What a step needs besides: the ids known so far are old, and ahead of the cursor
stands nothing that was read before. -/
structure Tracks (n : Nat) (c₀ c : Channel) (fed : List Nat) (wasAside : Nat → Prop) : Prop extends
    FedInOrder c₀ c fed wasAside where
  below : ∀ i ∈ fed, i ≤ n
  base : ∀ i ∈ c₀.readIds, i ≤ n
  ahead : ∀ i ∈ c.aheadIds, i ∉ c₀.readIds

variable {c₀ : Channel} {fed : List Nat} {wasAside wasAside' : Nat → Prop} {n m : Nat}

theorem tracks_refl (hw : c.WellFormed) (hbelow : ∀ i ∈ c.entryIds, i ≤ n) :
    Tracks n c c [] wasAside where
  once := List.nodup_nil
  fresh i h := nomatch h
  order := ⟨c.readIds, [], (List.append_nil _).symm, List.Sublist.refl _, rfl, fun i h => nomatch h⟩
  below i h := nomatch h
  base i h := hbelow i (entryIds_split c ▸ List.mem_append_left _ h)
  ahead i h hread := by
    have hn := hw.nodup
    rw [entryIds_split] at hn
    exact List.disjoint_of_nodup_append hn hread h

theorem Tracks.mono (t : Tracks n c₀ c fed wasAside) (hn : n ≤ m)
    (hw : ∀ i, wasAside i → wasAside' i) : Tracks m c₀ c fed wasAside' where
  once := t.once
  fresh := t.fresh
  order := by
    obtain ⟨old, new, h1, h2, h3, h4⟩ := t.order
    exact ⟨old, new, h1, h2, h3, fun i hi => (h4 i hi).imp_right (hw i)⟩
  below i hi := Nat.le_trans (t.below i hi) hn
  base i hi := Nat.le_trans (t.base i hi) hn
  ahead := t.ahead

/-- An entry fed that is still in the batch was passed by the cursor. -/
theorem Tracks.read (t : Tracks n c₀ c fed wasAside) (hi : i ∈ fed) (hmem : i ∈ c.entryIds) :
    i ∈ c.readIds := by
  obtain ⟨old, new, hread, -, horder, -⟩ := t.order
  have h : i ∈ fed.filter (· ∈ c.entryIds) := List.mem_filter.mpr ⟨hi, by simpa using hmem⟩
  rw [← horder] at h
  rw [hread]
  exact List.mem_append_right _ (List.mem_filter.mp h).1

/-- What stands ahead of the cursor was not fed. -/
theorem Tracks.not_fed (t : Tracks n c₀ c fed wasAside) (hw : c.WellFormed) (hi : i ∈ c.aheadIds) :
    i ∉ fed := fun hfed => by
  have hn := hw.nodup
  rw [entryIds_split] at hn
  have hmem : i ∈ c.entryIds := by
    rw [entryIds_split]
    exact List.mem_append_right _ hi
  exact List.disjoint_of_nodup_append hn (t.read hfed hmem) hi

/-- A batch with the same ids at the same cursor. -/
theorem Tracks.same (t : Tracks n c₀ c fed wasAside) (hids : c'.entryIds = c.entryIds)
    (hcur : c'.cursor = c.cursor) : Tracks n c₀ c' fed wasAside where
  once := t.once
  fresh := t.fresh
  order := by
    rw [readIds_eq, hids, hcur, ← readIds_eq]
    exact t.order
  below := t.below
  base := t.base
  ahead := by
    rw [aheadIds_eq, hids, hcur, ← aheadIds_eq]
    exact t.ahead

/-- A new batch: nothing fed is in it. -/
theorem Tracks.restart (t : Tracks n c₀ c fed wasAside) {e : Entry} (hfresh : n < e.id)
    (he : c'.entries = [e]) (hcur : c'.cursor = 0) : Tracks n c₀ c' fed wasAside := by
  have hids : c'.entryIds = [e.id] := congrArg (List.map Entry.id) he
  refine ⟨⟨t.once, t.fresh, [], [], ?_, List.nil_sublist _, ?_, fun i h => nomatch h⟩, t.below,
    t.base, ?_⟩
  · rw [readIds_eq, hcur]
    rfl
  · rw [hids]
    refine (List.filter_eq_nil_iff.mpr fun i hi h => ?_).symm
    have hie : i = e.id := by simpa using h
    have := t.below i hi
    omega
  · rw [aheadIds_eq, hids, hcur]
    intro i hi h
    have hie : i = e.id := by simpa using hi
    have := t.base i h
    omega

/-- A new entry behind the cursor's place. -/
theorem Tracks.insert (t : Tracks n c₀ c fed wasAside) (hw : c.WellFormed) {e : Entry}
    {front : Bool}
    (hfresh : n < e.id) (he : c'.entries = (c.insert e front).entries)
    (hcur : c'.cursor = c.cursor) :
    Tracks n c₀ c' fed wasAside where
  once := t.once
  fresh := t.fresh
  order := by
    have hread : c'.readIds = c.readIds := by
      rw [readIds_eq, readIds_eq, hcur]
      unfold Channel.entryIds
      rw [he]
      unfold Channel.insert
      cases front with
      | true =>
        simp only [if_true]
        conv_rhs => rw [← c.read_append_ahead]
        rw [List.map_append, List.map_append]
        have hlen : (c.read.map Entry.id).length = c.cursor := by
          rw [List.length_map, hw.read_length]
        rw [← hlen, List.take_left, List.take_left]
      | false =>
        simp only [Bool.false_eq_true, if_false]
        rw [List.map_append]
        exact List.take_append_of_le_length (by rw [List.length_map]; exact hw.cursor_le)
    have hmem : ∀ i ∈ fed, (i ∈ c'.entryIds ↔ i ∈ c.entryIds) := by
      intro i hi
      have hp := insert_ids c e front
      unfold Channel.entryIds at hp ⊢
      rw [he, hp.mem_iff, List.mem_cons]
      have := t.below i hi
      constructor
      · rintro (rfl | h)
        · omega
        · exact h
      · exact Or.inr
    have hfilter : fed.filter (· ∈ c'.entryIds) = fed.filter (· ∈ c.entryIds) :=
      List.filter_congr fun i hi => by simpa using hmem i hi
    rw [hread, hfilter]
    exact t.order
  below := t.below
  base := t.base
  ahead i hi := by
    rcases List.mem_cons.mp ((insert_unread hw he hcur).mem_iff.mp hi) with rfl | hi
    · intro h
      have := t.base _ h
      omega
    · exact t.ahead i hi

/-- The cursor passes the entries set aside and the one fed. -/
theorem Tracks.take (t : Tracks n c₀ c fed wasAside) (hw : c.WellFormed)
    (hbelow : ∀ i ∈ c.entryIds, i ≤ n) {e : Entry} {es : List Entry} (hun : c.unread = e :: es)
    (haside : ∀ i ∈ c.aside, wasAside i) : Tracks n c₀ c.take.1 (fed ++ [e.id]) wasAside := by
  obtain ⟨passed, tail, hsplit, hpassed, htake⟩ := Channel.take_split hun
  have haheadIds : c.aheadIds = passed.map Entry.id ++ e.id :: tail.map Entry.id := by
    unfold Channel.aheadIds
    rw [hsplit, List.map_append, List.map_cons]
  have he : e.id ∈ c.aheadIds := by
    rw [haheadIds]
    exact List.mem_append_right _ List.mem_cons_self
  -- What is taken was ahead, so it was not fed before.
  have hfed : e.id ∉ fed := t.not_fed hw he
  have hmem : e.id ∈ c.entryIds := by
    rw [entryIds_split]
    exact List.mem_append_right _ he
  have hids : c.take.1.entryIds = c.entryIds := by rw [htake]; rfl
  have hn := hw.nodup
  rw [entryIds_split, haheadIds] at hn
  have hread : c.take.1.readIds = c.readIds ++ (passed.map Entry.id ++ [e.id]) := by
    have hlen : c.take.1.cursor = (c.readIds ++ (passed.map Entry.id ++ [e.id])).length := by
      rw [htake, List.length_append, List.length_append, List.length_map, List.length_singleton,
        Channel.readIds, List.length_map, hw.read_length]
      exact Nat.add_assoc ..
    rw [readIds_eq, hids, entryIds_split, haheadIds, hlen]
    have : c.readIds ++ (passed.map Entry.id ++ e.id :: tail.map Entry.id) =
        (c.readIds ++ (passed.map Entry.id ++ [e.id])) ++ tail.map Entry.id := by simp
    rw [this, List.take_left]
  have hahead : c.take.1.aheadIds = tail.map Entry.id := by
    have h := entryIds_split c.take.1
    rw [hids, entryIds_split c, hread, haheadIds] at h
    have : c.readIds ++ (passed.map Entry.id ++ e.id :: tail.map Entry.id) =
        (c.readIds ++ (passed.map Entry.id ++ [e.id])) ++ tail.map Entry.id := by simp
    rw [this] at h
    exact (List.append_cancel_left h).symm
  have hpass : ∀ i ∈ passed.map Entry.id, i ∉ fed ++ [e.id] := by
    intro i hi
    rw [List.mem_append, List.mem_singleton, not_or]
    refine ⟨t.not_fed hw (haheadIds ▸ List.mem_append_left _ hi), ?_⟩
    rintro rfl
    exact List.disjoint_of_nodup_append hn.of_append_right hi List.mem_cons_self
  obtain ⟨old, new, hold, hsub, horder, hnew⟩ := t.order
  refine ⟨⟨?_, ?_, old, new ++ (passed.map Entry.id ++ [e.id]), ?_, hsub, ?_, ?_⟩, ?_, t.base, ?_⟩
  · exact t.once.append (List.nodup_singleton _) (List.disjoint_singleton.mpr hfed)
  · intro i hi
    rcases List.mem_append.mp hi with hi | hi
    · exact t.fresh i hi
    · rw [List.mem_singleton.mp hi]
      exact t.ahead _ he
  · rw [hread, hold, List.append_assoc]
  · have hkeep : new.filter (· ∈ fed ++ [e.id]) = new.filter (· ∈ fed) := by
      refine List.filter_congr fun i hi => ?_
      have hne : i ≠ e.id := by
        rintro rfl
        exact List.disjoint_of_nodup_append hn (hold ▸ List.mem_append_right _ hi)
          (List.mem_append_right _ List.mem_cons_self)
      simp [hne]
    have hnone : (passed.map Entry.id).filter (· ∈ fed ++ [e.id]) = [] :=
      List.filter_eq_nil_iff.mpr fun i hi h => hpass i hi (by simpa using h)
    rw [List.filter_append, List.filter_append, hkeep, hnone, horder, hids, List.filter_append]
    simp [hmem]
  · intro i hi
    rcases List.mem_append.mp hi with hi | hi
    · exact (hnew i hi).imp_left (List.mem_append_left _)
    · rcases List.mem_append.mp hi with hi | hi
      · obtain ⟨x, hx, rfl⟩ := List.mem_map.mp hi
        exact .inr (haside _ (hpassed x hx))
      · exact .inl (List.mem_append_right _ hi)
  · intro i hi
    rcases List.mem_append.mp hi with hi | hi
    · exact t.below i hi
    · rw [List.mem_singleton.mp hi]
      exact hbelow _ hmem
  · intro i hi
    rw [hahead] at hi
    refine t.ahead i ?_
    rw [haheadIds]
    exact List.mem_append_right _ (List.mem_cons_of_mem _ hi)

/-- Decisions taken out are missing on both sides. -/
theorem Tracks.dropDecisions (t : Tracks n c₀ c fed wasAside) (hw : c.WellFormed)
    (which : Resolved) :
    Tracks n c₀ (c.dropDecisions which).1 fed wasAside := by
  have hw' := dropDecisions_wellFormed hw which
  have heq := hw.dropDecisions which
  have hids : (c.dropDecisions which).1.entryIds =
      (c.readLeft which).map Entry.id ++ (c.aheadLeft which).map Entry.id := by
    rw [heq]
    exact List.map_append
  have hread : (c.dropDecisions which).1.readIds = (c.readLeft which).map Entry.id := by
    rw [readIds_eq, hids, heq]
    exact List.take_left' (List.length_map _)
  have hahead : (c.dropDecisions which).1.aheadIds = (c.aheadLeft which).map Entry.id := by
    rw [aheadIds_eq, hids, heq]
    exact List.drop_left' (List.length_map _)
  have hsub : ∀ i ∈ (c.dropDecisions which).1.entryIds, i ∈ c.entryIds := by
    intro i hi
    rw [heq] at hi
    exact (List.Sublist.map _ (left_subset which)).subset hi
  -- A read entry stays exactly when its id does.
  have hstays : ∀ e ∈ c.read, (!c.gone which true e) = decide
      (e.id ∈ (c.dropDecisions which).1.entryIds) := by
    intro e he
    rw [Bool.eq_iff_iff, decide_eq_true_eq, hids, List.mem_append]
    constructor
    · exact fun h => .inl (List.mem_map_of_mem (List.mem_filter.mpr ⟨he, h⟩))
    · rintro (h | h)
      · obtain ⟨e', he', hid⟩ := List.mem_map.mp h
        obtain ⟨hmem, hp⟩ := List.mem_filter.mp he'
        have := hw.eq_of_id (List.mem_of_mem_take hmem) (List.mem_of_mem_take he) hid
        exact this ▸ hp
      · obtain ⟨e', he', hid⟩ := List.mem_map.mp h
        exact absurd hid.symm (hw.not_both he (List.mem_filter.mp he').1)
  have hfilter : (c.dropDecisions which).1.readIds =
      c.readIds.filter (· ∈ (c.dropDecisions which).1.entryIds) := by
    rw [hread]
    unfold Channel.readLeft Channel.readIds
    rw [List.filter_map, List.filter_congr hstays]
    rfl
  obtain ⟨old, new, hold, hsublist, horder, hnew⟩ := t.order
  refine ⟨⟨t.once, t.fresh, old.filter (· ∈ (c.dropDecisions which).1.entryIds),
    new.filter (· ∈ (c.dropDecisions which).1.entryIds), ?_, ?_, ?_, ?_⟩, t.below, t.base, ?_⟩
  · rw [hfilter, hold, List.filter_append]
  · exact List.filter_sublist.trans hsublist
  · rw [List.filter_filter]
    have hcomm : new.filter (fun i => decide (i ∈ fed) && decide
      (i ∈ (c.dropDecisions which).1.entryIds)) =
        (new.filter (· ∈ fed)).filter (· ∈ (c.dropDecisions which).1.entryIds) := by
      rw [List.filter_filter]
      exact List.filter_congr fun i _ => Bool.and_comm _ _
    rw [hcomm, horder, List.filter_filter]
    refine List.filter_congr fun i _ => ?_
    by_cases h : i ∈ (c.dropDecisions which).1.entryIds
    · simp [h, hsub i h]
    · simp [h]
  · exact fun i hi => hnew i (List.mem_filter.mp hi).1
  · intro i hi
    rw [hahead] at hi
    exact t.ahead i ((List.Sublist.map _ List.filter_sublist).subset hi)

/-- An operation feeds one thing at most. -/
theorem feeds_single {f : Feed} (h : f ∈ r.feeds op) : r.feeds op = [f] := by
  cases op with
  | nextFeed =>
    have h : f ∈ r.nextFeed.2.toList := h
    show r.nextFeed.2.toList = [f]
    rw [Option.mem_toList] at h
    rw [Option.mem_def.mp h]
    rfl
  | _ => exact absurd h List.not_mem_nil

/-- Feeding `a` takes its first unread entry. -/
theorem fed_takes {e : Entry} (h : r.feeds op = [.entry a e]) :
    ∃ c es, r.channel a = some c ∧ c.unread = e :: es ∧ (r.apply op).channel a = some c.take.1 := by
  have hop : op = .nextFeed := by
    cases op <;> first | rfl | exact nomatch h
  subst hop
  have hpick : r.cleared.pick.1.channels = r.channels := r.cleared.pick_picked.channels
  have hout : r.nextFeed.2.toList = [.entry a e] := h
  have hfed := r.nextFeed_fed
  show ∃ c es, _ ∧ _ ∧ r.nextFeed.1.channel a = _
  generalize hp : r.nextFeed = p at hfed hout ⊢
  obtain ⟨r', o⟩ := p
  cases hfed with
  | armed => exact nomatch hout
  | idle => exact nomatch hout
  | handoff => exact nomatch hout
  | @entry b c e' es auth p unarmed picked isOpen unread reader auth_sub =>
    obtain ⟨hfeed, -⟩ := List.cons.inj hout
    injection hfeed with hb he
    subst hb he
    refine ⟨c, es, isOpen, unread, ?_⟩
    have hchan : p.channel b = some c := by
      unfold channel at isOpen ⊢
      rcases reader with ⟨-, rfl⟩ | ⟨-, -, rfl⟩
      · exact hpick ▸ isOpen
      · exact hpick ▸ isOpen
    have hid : ∀ c : Channel, c.take.1.id = c.id := fun c => by
      obtain ⟨n, hn⟩ := c.take_eq
      rw [hn]
    exact channel_update_self hid hchan

/-- An operation that feeds `a` nothing and does not move its cursor leaves the batch
read up to the same place. -/
theorem edit_tracks (t : Tracks n c₀ c fed wasAside) (hw : c.WellFormed) (hn : r.nextEntry = n)
    (h : Edit r op c c') (hc : r.channel a = some c) (hc' : (r.apply op).channel a = some c')
    (hfeeds : ∀ e, r.feeds op ≠ [.entry a e]) (hstill : ¬r.Moves a op) :
    Tracks n c₀ c' fed wasAside := by
  have hid := channel_id hc
  have hstay : r.apply op = r → c' = c := fun hsame => by
    rw [hsame] at hc'
    exact Option.some.inj (hc'.symm.trans hc)
  -- A read that fails changes nothing.
  have hfails : ∀ {id entry replay}, (id = a → (r.readAt id entry replay).2 = false) → id = c.id →
      r.apply op = (r.readAt id entry replay).1 → c' = c := by
    intro id entry replay hno hida happ
    refine hstay (happ.trans ?_)
    rcases r.readAt_floor id entry replay with ⟨-, hsame⟩ | ⟨hyes, -⟩
    · exact hsame
    · rw [hno (hida.trans hid)] at hyes
      cases hyes
  have hpush : op.PushesInto c.id → r.stores c op = false := by
    intro hpush
    refine Bool.eq_false_iff.mpr fun h => hstill ?_
    cases op <;> first | exact ⟨hid ▸ hpush, c, hc, h⟩ | exact hpush.elim
  cases h with
  | keep entries cursor marks => exact t.same (congrArg (List.map Entry.id) entries) cursor
  | restart pushes fresh starts entries cursor aside decisions =>
    rw [hpush pushes] at cursor
    exact t.restart (by omega) entries cursor
  | insert pushes fresh goesOn stores entries cursor aside decisions =>
    rw [hpush pushes] at cursor
    exact t.insert hw (by omega) entries cursor
  | take feeds unread taken => exact absurd (hid ▸ feeds) (hfeeds _)
  | dropDecisions drops left =>
    rw [left]
    exact t.dropDecisions hw _
  | setAside sets mem set => exact t.same (by rw [set]; rfl) (by rw [set])
  | revise revises revised =>
    refine t.same ?_ (by rw [revised])
    rw [revised]
    exact reviseEntries_ids _ _ c.entries
  | flush flushes entries cursor marks =>
    refine absurd ?_ hstill
    cases op <;> first | exact flushes.elim | exact hid ▸ flushes
  | @rewind entry rewinds rewound =>
    subst rewinds
    have hno : (c.rewind entry).2 = false := by
      cases hr : (c.rewind entry).2 with
      | false => rfl
      | true =>
        refine absurd ⟨hid, ?_⟩ hstill
        show (r.channel c.id).any _ = true
        rw [hid, hc]
        exact hr
    have hsame : c' = c := by
      rw [rewound]
      unfold Channel.rewind at hno ⊢
      split
      next hyes =>
        rw [if_pos hyes] at hno
        cases hno
      · rfl
    rw [hsame]
    exact t
  | jump jumps entries cursor marks place =>
    have hsame : c' = c := by
      cases op with
      | nextChannel => exact absurd (hid ▸ jumps) hstill
      | replay id =>
        exact hfails (fun h => Bool.eq_false_iff.mpr fun hyes => hstill ⟨h, hyes⟩) jumps rfl
      | replayFrom id entry =>
        exact hfails (fun h => Bool.eq_false_iff.mpr fun hyes => hstill ⟨h, hyes⟩) jumps rfl
      | stepTo id entry =>
        exact hfails (fun h => Bool.eq_false_iff.mpr fun hyes => hstill ⟨h, hyes⟩) jumps rfl
      | _ => exact jumps.elim
    rw [hsame]
    exact t

/-- A channel stays open while its cursor is not moved, edited by each operation. -/
theorem channel_edit (s : Sound r) (hc : r.channel a = some c) (hop : op ≠ .close a) :
    ∃ c', (r.apply op).channel a = some c' ∧ Edit r op c c' := by
  have hmem := mem_of_channel hc
  have hid := channel_id hc
  rcases r.apply_batches s.ids s.batches op with ⟨f, hf, hmap⟩ | hopens | ⟨id, rfl, hfil⟩
  · refine ⟨f c, ?_, (hf c hmem).2⟩
    have hsound := apply_sound s op
    have hmem' : f c ∈ (r.apply op).channels := by
      rw [hmap]
      exact List.mem_map_of_mem hmem
    have := channel_of_mem hsound.ids hmem'
    rwa [(hf c hmem).1, hid] at this
  · obtain ⟨id, label, hostTab, policy, muted, -, happ⟩ := hopens
    refine ⟨c, ?_, Edit.refl c⟩
    unfold channel at hc ⊢
    rw [happ, List.find?_append, hc]
    rfl
  · have hne : c.id ≠ id := fun h => hop (by rw [← hid, h])
    refine ⟨c, ?_, Edit.refl c⟩
    have hmem' : c ∈ (r.apply (.close id)).channels := by
      rw [hfil]
      exact List.mem_filter.mpr ⟨hmem, by simpa using hne⟩
    have := channel_of_mem (apply_sound s _).ids hmem'
    rwa [hid] at this

/-- One operation that does not move the cursor of `a`. -/
theorem step_tracks (s : Sound r) (hc : r.channel a = some c) (hstill : ¬r.Moves a op)
    (t : Tracks r.nextEntry c₀ c fed wasAside) (haside : ∀ i ∈ c.aside, wasAside i) :
    ∃ c', (r.apply op).channel a = some c' ∧
      Tracks (r.apply op).nextEntry c₀ c' (fed ++ fedIds a (r.feeds op)) wasAside := by
  have hw := s.batches c (mem_of_channel hc)
  have hle := r.nextEntry_le op
  by_cases hfeeds : ∃ e, r.feeds op = [.entry a e]
  · obtain ⟨e, hfeeds⟩ := hfeeds
    obtain ⟨c₁, es, hc₁, hun, happ⟩ := fed_takes hfeeds
    obtain rfl := Option.some.inj (hc₁.symm.trans hc)
    have hids : fedIds a (r.feeds op) = [e.id] := by
      rw [hfeeds]
      simp [fedIds, Feed.idFrom]
    rw [hids]
    exact ⟨_, happ, (t.take hw (s.below _ (mem_of_channel hc)) hun haside).mono hle fun _ h => h⟩
  · have hnone : fedIds a (r.feeds op) = [] := by
      refine List.filterMap_eq_nil_iff.mpr fun f hf => ?_
      have hone := feeds_single hf
      cases f with
      | announce => rfl
      | entry b e =>
        unfold Feed.idFrom
        refine if_neg fun hb => hfeeds ⟨e, ?_⟩
        rw [hone, hb]
    have hop : op ≠ .close a := fun h => hstill (h ▸ rfl)
    obtain ⟨c', hc', hed⟩ := channel_edit s hc hop
    rw [hnone, List.append_nil]
    exact ⟨c', hc', (edit_tracks t hw rfl hed hc hc' (fun e h => hfeeds ⟨e, h⟩) hstill).mono hle
      fun _ h => h⟩

/-- The entry `i` of `a` was set aside at some time of the run `seg` after `pre`. -/
def AsideIn (a : ChannelId) (pre seg : List Op) (i : Nat) : Prop :=
  ∃ seg₁ seg₂ c, seg = seg₁ ++ seg₂ ∧ (machine.state (pre ++ seg₁)).channel a = some c ∧ i ∈ c.aside

/-- **While nothing moves its cursor, a channel's entries are fed in batch order.** -/
theorem run_tracks (pre seg : List Op) (hc : (machine.state pre).channel a = some c₀)
    (hstill : machine.AllFrom (fun r op => ¬r.Moves a op) (machine.state pre) seg) :
    ∃ c, (machine.state (pre ++ seg)).channel a = some c ∧
      Tracks (machine.state (pre ++ seg)).nextEntry c₀ c
        (fedIds a (machine.outFrom (machine.state pre) seg)) (AsideIn a pre seg) := by
  induction seg using List.reverseRecOn with
  | nil =>
    rw [List.append_nil]
    have s := state_sound pre
    exact ⟨c₀, hc, tracks_refl (s.batches _ (mem_of_channel hc)) (s.below _ (mem_of_channel hc))⟩
  | append_singleton seg op ih =>
    obtain ⟨hall, hlast⟩ := (machine.allFrom_snoc _ seg op).mp hstill
    obtain ⟨c, hc', t⟩ := ih hall
    rw [← machine.state_append] at hlast
    have haside : ∀ i ∈ c.aside, AsideIn a pre (seg ++ [op]) i := fun i hi =>
      ⟨seg, [op], c, rfl, hc', hi⟩
    have hmono : ∀ i, AsideIn a pre seg i → AsideIn a pre (seg ++ [op]) i := by
      rintro i ⟨seg₁, seg₂, c₁, rfl, hc₁, hi⟩
      exact ⟨seg₁, seg₂ ++ [op], c₁, List.append_assoc .., hc₁, hi⟩
    obtain ⟨c', hc₂, t'⟩ :=
      step_tracks (state_sound (pre ++ seg)) hc' hlast (t.mono (Nat.le_refl _) hmono) haside
    have hout : fedIds a (machine.outFrom (machine.state pre) (seg ++ [op])) =
        fedIds a (machine.outFrom (machine.state pre) seg) ++
          fedIds a ((machine.state (pre ++ seg)).feeds op) := by
      rw [machine.outFrom_append, fedIds, List.filterMap_append, ← machine.state_append]
      show _ ++ List.filterMap _ ((machine.state (pre ++ seg)).feeds op ++ []) = _
      rw [List.append_nil]
      rfl
    have hstate : machine.state (pre ++ (seg ++ [op])) = (machine.state (pre ++ seg)).apply op := by
      rw [← List.append_assoc]
      exact machine.state_snoc (pre ++ seg) op
    rw [hout, hstate]
    exact ⟨c', hc₂, t'⟩

end Router

open Router

/-! ## The results -/

/-- **Entries are conserved and fed in order.** Along every run ids stay unique, batches
well formed and names names of open channels; an unread entry leaves in one of the ways
of `Leaves`, and one new in a batch is unread unless its own append stored it; while
nothing moves its cursor a channel is fed in batch order; what `pick` returns has an
entry to take. -/
theorem entries_conserved :
    (∀ ops, let r := machine.state ops
      r.ids.Nodup ∧ (r.channels.flatMap Channel.entryIds).Nodup ∧
        (∀ c ∈ r.channels, c.WellFormed) ∧ Named r) ∧
    (∀ ops op, let r := machine.state ops
      ∀ c ∈ r.channels,
        (∀ i ∈ c.unreadIds,
          (∃ c', (r.apply op).channel c.id = some c' ∧ i ∈ c'.unreadIds) ∨ Leaves r op c i) ∧
        ∀ c', (r.apply op).channel c.id = some c' → ∀ i ∈ c'.entryIds, i ∉ c.entryIds →
          i ∈ c'.unreadIds ∨ r.stores c op = true) ∧
    (∀ a pre seg c₀, (machine.state pre).channel a = some c₀ →
      machine.AllFrom (fun r op => ¬r.Moves a op) (machine.state pre) seg →
      ∃ c, (machine.state (pre ++ seg)).channel a = some c ∧
        FedInOrder c₀ c (fedIds a (machine.outFrom (machine.state pre) seg)) (AsideIn a pre seg)) ∧
    ∀ ops a, (machine.state ops).pick.2 = some a →
      ∃ c e, (machine.state ops).channel a = some c ∧ c.take.2 = some e := by
  refine ⟨fun ops => ?_, fun ops op => ?_, fun a pre seg c₀ hc hstill => ?_, fun ops a h => ?_⟩
  · have s := state_sound ops
    refine ⟨s.ids, s.entryIds_nodup, s.batches, s.named⟩
  · intro r c hmem
    have s : Sound r := state_sound ops
    have hw := s.batches c hmem
    have hc := channel_of_mem s.ids hmem
    by_cases hclose : op = .close c.id
    · refine ⟨fun i hi => .inr (.closed hclose), fun c' hc' => ?_⟩
      subst hclose
      have hopen : r.isOpen c.id = true := isOpen_iff.mpr ⟨c, hc⟩
      obtain ⟨tab, hold, heq, -⟩ := close_eq hopen
      have hmem' := mem_of_channel hc'
      rw [heq] at hmem'
      have hne := (List.mem_filter.mp hmem').2
      rw [channel_id hc'] at hne
      simp at hne
    · obtain ⟨c₁, hc₁, hed⟩ := channel_edit s hc hclose
      refine ⟨fun i hi => ?_, fun c' hc' i hi hno => ?_⟩
      · rcases edit_unread hed hw hi with h | h
        · exact .inl ⟨c₁, hc₁, h⟩
        · exact .inr h
      · obtain rfl := Option.some.inj (hc₁.symm.trans hc')
        exact edit_new hed hw (s.below c hmem) hi hno
  · obtain ⟨c, hc', t⟩ := run_tracks pre seg hc hstill
    exact ⟨c, hc', t.toFedInOrder⟩
  · obtain ⟨c, hc, hpend, -⟩ := audible_iff.mp (pick_spec h).1
    obtain ⟨e, es, hun⟩ := Channel.unread_of_pending hpend
    exact ⟨c, e, hc, Channel.take_unread hun⟩

end Sonara.L2
