import Sonara.L2.Driving

/-!
# The entry just taken

What the driver's accounts of dropped text rest on. While the driver waits for an entry, the router
stands right behind it (`Took`): `reading` names it, and as long as it is in its batch it is the
last one the cursor passed. So a cut entry can be stepped back over exactly while it is in its
batch. Beside it, what an operation does to the unread entries of a channel (`apply_unread`,
`gentle_unread`) and which batches it does not touch (`Spares.batch`).
-/

namespace Sonara.L2

open Sonara (Text)

/-- The operation may move the cursor of `a`, or end what is read. -/
def Op.Turns (a : ChannelId) : Op → Prop
  | .openChannel _ _ _ _ | .labelIfMissing _ _ | .focus _ | .setMuted _ _ | .setFocusOnly _ => False
  | .authorize _ | .prioritize _ | .push _ _ _ | .pushWith _ _ _ _ _ | .append _ _ _ _ => False
  | .dropDecisions _ _ | .endBatch _ | .setAside _ _ _ | .revise _ _ _ => False
  | .close id => id = a
  | .flush id => id = some a ∨ id = none
  | _ => True

/-- The operation leaves every unread entry unread. -/
def Op.Gentle : Op → Prop
  | .close _ | .dropDecisions _ _ | .flush _ | .nextFeed | .push _ _ _ | .stepTo _ _ => False
  | .pushWith _ _ _ replace _ => replace = false
  | .setAside _ _ aside => aside = false
  | .replayFrom _ entry => entry = none
  | _ => True

namespace Router

variable {r r' : Router} {a : ChannelId} {c c' : Channel} {op : Op} {i : Nat}

/-- The entry `i` of `a` is unread. -/
def Unread (r : Router) (a : ChannelId) (i : Nat) : Prop :=
  ∃ c, r.channel a = some c ∧ i ∈ c.unreadIds

/-- `i` is the entry of `a` taken last. -/
structure Took (r : Router) (a : ChannelId) (i : Nat) : Prop where
  known : i ≤ r.nextEntry
  reads : r.reading = some (a, i)
  /-- In its batch it is the last one the cursor passed. -/
  last : ∃ c, r.channel a = some c ∧ (i ∈ c.entryIds → c.readIds.getLast? = some i)

/-- The operation leaves the batch of `a` as it is. -/
def Spares (r : Router) (a : ChannelId) : Op → Prop
  | .openChannel _ _ _ _ | .authorize _ | .takeFloor _ => True
  | .pushWith id _ _ _ _ | .append id _ _ _ | .replay id | .replayFrom id _ | .stepTo id _ => id ≠ a
  | .nextChannel => r.nextChannel.2 ≠ some (a, true)
  | _ => False

/-- The batch of `c'` is that of `c`. -/
structure SameBatch (c c' : Channel) : Prop where
  entries : c'.entries = c.entries
  cursor : c'.cursor = c.cursor
  aside : c'.aside = c.aside

/-! ## What is unread -/

/-- An unread entry stays unread, or leaves. -/
theorem apply_unread (s : Sound r) (op : Op) (h : r.Unread a i) :
    (r.apply op).Unread a i ∨ ∃ c, r.channel a = some c ∧ i ∈ c.unreadIds ∧ Leaves r op c i := by
  obtain ⟨c, hc, hi⟩ := h
  have hid := channel_id hc
  by_cases hclose : op = .close a
  · exact .inr ⟨c, hc, hi, .closed (by rw [hclose, hid])⟩
  · obtain ⟨c', hc', hed⟩ := channel_edit s hc hclose
    rcases edit_unread hed (s.batches c (mem_of_channel hc)) hi with hi' | hleaves
    · exact .inl ⟨c', hc', hi'⟩
    · exact .inr ⟨c, hc, hi, hleaves⟩

/-! ### Which entries an operation takes -/

theorem leaves_flush {id : Option ChannelId} (h : Leaves r (.flush id) c i) :
    id = some c.id ∨ id = none := by
  cases h with
  | fed feeds => cases feeds
  | aside sets => cases sets
  | dropped drops => cases drops
  | replaced pushes => exact pushes.elim
  | flushed flushes => exact flushes
  | passed moves => rcases moves with h | h <;> cases h
  | closed closes => cases closes

theorem leaves_close {id : ChannelId} (h : Leaves r (.close id) c i) : c.id = id := by
  cases h with
  | fed feeds => cases feeds
  | aside sets => cases sets
  | dropped drops => cases drops
  | replaced pushes => exact pushes.elim
  | flushed flushes => exact flushes.elim
  | passed moves => rcases moves with h | h <;> cases h
  | closed closes => cases closes; rfl

/-- An entry that leaves by a feed is the one fed. -/
theorem leaves_feed (h : Leaves r .nextFeed c i) :
    ∃ e, r.nextFeed.2 = some (.entry c.id e) ∧ e.id = i := by
  cases h with
  | @fed e feeds this =>
    refine ⟨e, ?_, this⟩
    have hlist : r.nextFeed.2.toList = [.entry c.id e] := feeds
    cases ho : r.nextFeed.2 with
    | none => rw [ho] at hlist; cases hlist
    | some f =>
      rw [ho] at hlist
      exact congrArg some (List.cons.inj hlist).1
  | aside sets => cases sets
  | dropped drops => cases drops
  | replaced pushes => exact pushes.elim
  | flushed flushes => exact flushes.elim
  | passed moves => rcases moves with h | h <;> cases h
  | closed closes => cases closes

theorem leaves_aside {id : ChannelId} {entry : Nat} {aside : Bool}
    (h : Leaves r (.setAside id entry aside) c i) :
    id = c.id ∧ entry = i ∧ aside = true := by
  cases h with
  | fed feeds => cases feeds
  | aside sets => cases sets; exact ⟨rfl, rfl, rfl⟩
  | dropped drops => cases drops
  | replaced pushes => exact pushes.elim
  | flushed flushes => exact flushes.elim
  | passed moves => rcases moves with h | h <;> cases h
  | closed closes => cases closes

theorem leaves_push {id : ChannelId} {text : Text} {label : Option String} {replace front : Bool}
    (h : Leaves r (.pushWith id text label replace front) c i) : id = c.id ∧ replace = true := by
  cases h with
  | fed feeds => cases feeds
  | aside sets => cases sets
  | dropped drops => cases drops
  | replaced pushes replaces => exact ⟨pushes, replaces⟩
  | flushed flushes => exact flushes.elim
  | passed moves => rcases moves with h | h <;> cases h
  | closed closes => cases closes

theorem leaves_read {id : ChannelId} {entry : Nat}
    (h : Leaves r op c i) (hop : op = .replayFrom id (some entry) ∨ op = .stepTo id entry) :
    id = c.id ∧ c.Before i entry := by
  cases h with
  | fed feeds => rcases hop with rfl | rfl <;> cases feeds
  | aside sets => rcases hop with rfl | rfl <;> cases sets
  | dropped drops => rcases hop with rfl | rfl <;> cases drops
  | replaced pushes => rcases hop with rfl | rfl <;> exact pushes.elim
  | flushed flushes => rcases hop with rfl | rfl <;> exact flushes.elim
  | passed moves before =>
    rcases hop with rfl | rfl <;> rcases moves with h | h <;> cases h <;> exact ⟨rfl, before⟩
  | closed closes => rcases hop with rfl | rfl <;> cases closes

/-- The unread decisions that go are the ones returned. -/
theorem dropDecisions_returns (s : Sound r) {id : ChannelId} (which : Resolved) (h : r.Unread a i) :
    (r.apply (.dropDecisions id which)).Unread a i ∨
    a = id ∧ ∃ e ∈ (r.dropDecisions id which).2, e.id = i := by
  obtain ⟨c, hc, hi⟩ := h
  have hw := s.batches c (mem_of_channel hc)
  have hkeeps : ∀ c : Channel, (c.dropDecisions which).1.id = c.id := by
    intro c
    obtain ⟨es, n, d, a, h⟩ := c.dropDecisions_eq which
    rw [h]
  by_cases hid : a = id
  · subst hid
    obtain ⟨hahead, haside⟩ := mem_unreadIds.mp hi
    obtain ⟨e, he, rfl⟩ := List.mem_map.mp hahead
    by_cases hgone : c.gone which false e = true
    · refine .inr ⟨rfl, e, ?_, rfl⟩
      unfold dropDecisions
      rw [hc]
      show e ∈ (c.dropDecisions which).2
      rw [hw.dropDecisions]
      exact List.mem_filter.mpr ⟨he, hgone⟩
    · refine .inl ⟨(c.dropDecisions which).1, channel_update_self hkeeps hc, ?_⟩
      rw [mem_unreadIds, hw.dropDecisions]
      refine ⟨?_, fun h => haside (Finset.mem_filter.mp h).1⟩
      unfold Channel.aheadIds Channel.ahead
      rw [List.drop_left]
      exact List.mem_map_of_mem (List.mem_filter.mpr ⟨he, by simpa using hgone⟩)
  · exact .inl ⟨c, (channel_update_ne hkeeps hid).trans hc, hi⟩

/-- Nothing leaves with a gentle operation. -/
theorem gentle_leaves (hop : op.Gentle) : ¬Leaves r op c i := by
  intro hleaves
  cases op with
  | close => exact hop
  | dropDecisions => exact hop
  | flush => exact hop
  | nextFeed => exact hop
  | push => exact hop
  | stepTo => exact hop
  | pushWith => exact Bool.false_ne_true (hop.symm.trans (leaves_push hleaves).2)
  | setAside => exact Bool.false_ne_true (hop.symm.trans (leaves_aside hleaves).2.2)
  | _ =>
    cases hleaves with
    | fed feeds => cases feeds
    | aside sets => cases sets
    | dropped drops => cases drops
    | replaced pushes replaces => first | exact pushes.elim | cases replaces
    | flushed flushes => exact flushes.elim
    | passed moves =>
      rcases moves with h | h
      · first | cases h; cases hop | cases h
      · cases h
    | closed closes => cases closes

theorem gentle_unread (s : Sound r) (op : Op) (hop : op.Gentle) (h : r.Unread a i) :
    (r.apply op).Unread a i := by
  refine (apply_unread s op h).resolve_right ?_
  rintro ⟨c, -, -, hleaves⟩
  exact gentle_leaves hop hleaves

/-! ### Batches left alone -/

/-- An operation that spares a batch leaves it. -/
theorem Spares.batch (op : Op) (h : r.Spares a op) (s : Sound r) (hc : r.channel a = some c) :
    ∃ c', (r.apply op).channel a = some c' ∧ SameBatch c c' := by
  have hid := channel_id hc
  have hclose : op ≠ .close a := by
    rintro rfl
    exact h
  obtain ⟨c', hc', hed⟩ := channel_edit s hc hclose
  refine ⟨c', hc', ?_⟩
  have hpush : ¬op.PushesInto c.id := by
    intro hpush
    cases op <;> first | exact h | exact hpush | exact h (hpush.trans hid)
  cases hed with
  | keep entries cursor marks => exact ⟨entries, cursor, marks.2⟩
  | restart pushes => exact absurd pushes hpush
  | insert pushes => exact absurd pushes hpush
  | take feeds => cases op <;> first | exact h.elim | cases feeds
  | dropDecisions drops => subst drops; exact h.elim
  | setAside sets => subst sets; exact h.elim
  | revise revises => subst revises; exact h.elim
  | flush flushes => cases op <;> first | exact h.elim | exact flushes.elim
  | rewind rewinds => subst rewinds; exact h.elim
  | jump jumps =>
    cases op with
    | nextChannel => exact absurd (hid ▸ jumps) h
    | replay id => exact absurd (jumps.trans hid) h
    | replayFrom id entry => exact absurd (jumps.trans hid) h
    | stepTo id entry => exact absurd (jumps.trans hid) h
    | _ => exact jumps.elim

theorem SameBatch.entryIds (h : SameBatch c c') : c'.entryIds = c.entryIds :=
  congrArg (List.map Entry.id) h.entries

theorem SameBatch.readIds (h : SameBatch c c') : c'.readIds = c.readIds := by
  rw [readIds_eq, readIds_eq, h.entryIds, h.cursor]

theorem SameBatch.trans {c'' : Channel} (h : SameBatch c c') (h' : SameBatch c' c'') :
    SameBatch c c'' :=
  ⟨h'.entries.trans h.entries, h'.cursor.trans h.cursor, h'.aside.trans h.aside⟩

/-! ### New entries -/

theorem push_mem (hw : c.WellFormed) (e : Entry) (replace front reading : Bool) :
    e.id ∈ (c.push e replace front reading).entryIds := by
  rw [hw.push]
  split
  · exact List.mem_singleton_self e.id
  · exact (insert_ids c e front).mem_iff.mpr List.mem_cons_self

/-- What an operation adds to a batch is unread, unless it is stored. -/
theorem new_unread (s : Sound r) (hc : r.channel a = some c)
    (hc' : (r.apply op).channel a = some c')
    (hclose : op ≠ .close a) (hi : i ∈ c'.entryIds) (hnew : r.nextEntry < i) :
    i ∈ c'.unreadIds ∨ r.stores c op = true := by
  obtain ⟨c₁, hc₁, hed⟩ := channel_edit s hc hclose
  obtain rfl := Option.some.inj (hc₁.symm.trans hc')
  have hmem := mem_of_channel hc
  refine edit_new hed (s.batches c hmem) (s.below c hmem) hi fun hold => ?_
  have := s.below c hmem i hold
  omega

/-- A host's text is unread. -/
theorem pushWith_new (s : Sound r) (id : ChannelId) (text : Text) (label : Option String)
    (replace front : Bool)
    {entry : Nat} (h : (r.pushWith id text label replace front).2 = some entry) :
    r.nextEntry < entry ∧ (r.apply (.pushWith id text label replace front)).Unread id entry := by
  unfold pushWith at h
  dsimp only at h
  split at h
  · cases h
  next hopen =>
    obtain ⟨c, hc⟩ := isOpen_iff.mp (by simpa using hopen)
    obtain rfl := Option.some.inj h
    have hid := channel_id hc
    have hafter : (r.apply (.pushWith id text label replace front)).channel id =
        some (c.push { id := r.nextEntry + 1, text := text, label := label } replace front
          (r.reading.any (·.1 == id))) := by
      show (r.pushWith id text label replace front).1.channel id = _
      unfold pushWith
      rw [if_neg hopen]
      exact channel_update_self (fun c => Channel.push_id ..) hc
    refine ⟨Nat.lt_succ_self _, _, hafter, ?_⟩
    exact (new_unread s hc hafter nofun (push_mem (s.batches c (mem_of_channel hc)) _ _ _ _)
      (Nat.lt_succ_self _)).resolve_right nofun

/-- L3's text is unread, or stored read: then nothing of the channel was unread or being read. -/
theorem append_new (s : Sound r) (id : ChannelId) (text : Text) (decision heard : Bool)
    {entry : Nat} (h : (r.append id text decision heard).2 = some entry) :
    r.nextEntry < entry ∧ ((r.apply (.append id text decision heard)).Unread id entry ∨
      heard = true ∧ (∀ j, ¬r.Unread id j) ∧ r.reading.map Prod.fst ≠ some id) := by
  cases hc : r.channel id with
  | none =>
    unfold append at h
    rw [hc] at h
    cases h
  | some c =>
    have hw := s.batches c (mem_of_channel hc)
    have hentry : entry = r.nextEntry + 1 := by
      unfold append at h
      rw [hc] at h
      dsimp only at h
      unfold pushWith at h
      dsimp only at h
      rw [if_neg (by rw [isOpen_iff.mpr ⟨c, hc⟩]; nofun)] at h
      exact (Option.some.inj h).symm
    subst hentry
    have hafter : (r.apply (.append id text decision heard)).channel id = some
        (r.appended id text decision heard c) := by
      have hkeeps : ∀ c, (r.appended id text decision heard c).id = c.id := by
        intro c
        unfold appended
        exact Channel.push_id c { id := r.nextEntry + 1, text := text, label := none } false false _
      have heq := channel_update_self hkeeps hc
      unfold channel at heq ⊢
      rw [← heq, show (r.apply (.append id text decision heard)).channels =
        _ from append_eq s.ids id text decision heard]
    have hmem : r.nextEntry + 1 ∈ (r.appended id text decision heard c).entryIds := by
      have hin := push_mem hw { id := r.nextEntry + 1, text := text, label := none } false false
        (r.reading.any (·.1 == id))
      unfold appended
      exact hin
    refine ⟨Nat.lt_succ_self _, ?_⟩
    rcases new_unread s hc hafter nofun hmem (Nat.lt_succ_self _) with hun | hstores
    · exact .inl ⟨_, hafter, hun⟩
    · have hcond : (heard && !(decide (0 < c.pending) || r.reading.any (·.1 == id))) = true :=
        hstores
      rw [Bool.and_eq_true, Bool.not_eq_true', Bool.or_eq_false_iff, decide_eq_false_iff_not]
        at hcond
      obtain ⟨hheard, hpending, hreading⟩ := hcond
      refine .inr ⟨hheard, fun j hj => hpending ?_, fun hread => ?_⟩
      · obtain ⟨c', hc', hj⟩ := hj
        obtain rfl := Option.some.inj (hc.symm.trans hc')
        exact List.length_pos_of_mem (List.mem_map.mp hj).choose_spec.1
      · obtain ⟨x, hx, hfst⟩ := Option.map_eq_some_iff.mp hread
        rw [hx, Option.any_some, hfst, beq_self_eq_true] at hreading
        cases hreading

/-! ## The cursor behind the entry taken -/

/-- The last entry passed stands right before the cursor. -/
theorem last_at (hw : c.WellFormed) (hlast : c.readIds.getLast? = some i) :
    0 < c.cursor ∧ c.entryIds[c.cursor - 1]? = some i := by
  obtain ⟨front, hfront⟩ := List.getLast?_eq_some_iff.mp hlast
  rw [readIds_eq] at hfront
  have hcursor : c.cursor = front.length + 1 := by
    have hlen := congrArg List.length hfront
    have hle := hw.cursor_le
    rw [List.length_append, List.length_singleton, List.length_take, Channel.entryIds,
      List.length_map] at hlen
    omega
  have hat : (c.entryIds.take c.cursor)[front.length]? = some i := by
    rw [hfront, List.getElem?_append_right (Nat.le_refl _), Nat.sub_self]
    rfl
  rw [List.getElem?_take_of_lt (by omega)] at hat
  refine ⟨by omega, ?_⟩
  rwa [hcursor, Nat.add_sub_cancel]

/-- Behind the last entry passed a step back makes it unread. -/
theorem rewind_unread (hw : c.WellFormed) (hlast : c.readIds.getLast? = some i)
    (haside : i ∉ c.aside) :
    i ∈ (c.rewind i).1.unreadIds := by
  obtain ⟨hpos, hget⟩ := last_at hw hlast
  have hentry : (c.entries[c.cursor - 1]?).any (fun e => e.id == i) = true := by
    unfold Channel.entryIds at hget
    rw [List.getElem?_map] at hget
    obtain ⟨e, he, hid⟩ := Option.map_eq_some_iff.mp hget
    rw [he, Option.any_some, hid, beq_self_eq_true]
  unfold Channel.rewind
  rw [if_pos ⟨hpos, hentry⟩, mem_unreadIds, aheadIds_eq]
  refine ⟨?_, haside⟩
  show i ∈ c.entryIds.drop (c.cursor - 1)
  rw [List.mem_iff_getElem?]
  exact ⟨0, by rw [List.getElem?_drop, Nat.add_zero, hget]⟩

/-- The place of an id in a batch. -/
theorem findIdx?_at {entry pos : Nat} (h : c.entries.findIdx? (fun e => e.id == entry) = some pos) :
    c.entryIds[pos]? = some entry := by
  obtain ⟨hlt, hid, -⟩ := List.findIdx?_eq_some_iff_getElem.mp h
  unfold Channel.entryIds
  rw [List.getElem?_map, List.getElem?_eq_getElem hlt, Option.map_some, eq_of_beq hid]

/-- An id stands in one place. -/
theorem at_unique (hw : c.WellFormed) {pos pos' entry : Nat} (h : c.entryIds[pos]? = some entry)
    (h' : c.entryIds[pos']? = some entry) : pos = pos' :=
  (List.getElem?_inj (List.getElem?_eq_some_iff.mp h).1 hw.nodup).mp (h.trans h'.symm)

/-- No unread entry stands before a place up to the cursor. -/
theorem unread_not_before (hw : c.WellFormed) {entry : Nat} (pos : Nat)
    (hat : c.entryIds[pos]? = some entry)
    (hpos : pos ≤ c.cursor) (hi : i ∈ c.unreadIds) : ¬c.Before i entry := by
  rintro ⟨pos', hfind, hbefore⟩
  obtain rfl := at_unique hw hat (findIdx?_at hfind)
  have hread : i ∈ c.readIds := by
    rw [readIds_eq]
    exact (List.take_sublist_take_left hpos).subset hbefore
  have hn := hw.nodup
  rw [entryIds_split] at hn
  exact List.disjoint_of_nodup_append hn hread (mem_unreadIds.mp hi).1

/-- The cursor stands behind what it took. -/
theorem take_last {e : Entry} {es : List Entry} (hw : c.WellFormed) (hun : c.unread = e :: es) :
    c.take.1.readIds.getLast? = some e.id := by
  obtain ⟨passed, tail, hsplit, -, htake⟩ := Channel.take_split hun
  have hlen : c.read.length = c.cursor := hw.read_length
  have hentries : c.entries = (c.read ++ passed) ++ e :: tail := by
    rw [← c.read_append_ahead, hsplit, List.append_assoc]
  have hread : c.take.1.read = (c.read ++ passed) ++ [e] := by
    rw [htake]
    show c.entries.take (c.cursor + passed.length + 1) = _
    rw [hentries, List.append_cons]
    refine List.take_left' ?_
    rw [List.length_append, List.length_append, List.length_singleton, ← hlen]
  unfold Channel.readIds
  rw [hread, List.map_append]
  exact List.getLast?_concat

/-- The entries passed stay passed when decisions go, in order. -/
theorem dropDecisions_readIds (hw : c.WellFormed) (which : Resolved) :
    (c.dropDecisions which).1.readIds = (c.readLeft which).map Entry.id := by
  rw [hw.dropDecisions, readIds_eq]
  show ((c.readLeft which ++ c.aheadLeft which).map Entry.id).take (c.readLeft which).length = _
  rw [List.map_append]
  exact List.take_left' (List.length_map _)

/-- An edit that does not turn the cursor leaves the entry read the last one passed. -/
theorem edit_last (h : Edit r op c c') (hw : c.WellFormed) (hop : ¬op.Turns c.id)
    (hknown : i ≤ r.nextEntry)
    (hreads : r.reading = some (c.id, i)) (hlast : i ∈ c.entryIds → c.readIds.getLast? = some i) :
    i ∈ c'.entryIds → c'.readIds.getLast? = some i := by
  intro hi
  cases h with
  | keep entries cursor marks =>
    have hsame : SameBatch c c' := ⟨entries, cursor, marks.2⟩
    rw [hsame.readIds]
    exact hlast (hsame.entryIds ▸ hi)
  | restart pushes fresh starts entries cursor aside decisions =>
    unfold Channel.entryIds at hi
    rw [entries, List.map_singleton, List.mem_singleton] at hi
    omega
  | @insert e front pushes fresh goesOn stores entries cursor aside decisions =>
    -- Nothing is stored read while the channel is read.
    have hst : r.stores c op = false := by
      cases op with
      | append id text decision heard =>
        show (heard && !(decide (0 < c.pending) || r.reading.any (·.1 == id))) = false
        rw [show id = c.id from pushes, hreads, Option.any_some, beq_self_eq_true, Bool.or_true,
          Bool.not_true,
          Bool.and_false]
      | _ => rfl
    rw [hst] at cursor
    have hread : c'.readIds = c.readIds := by
      have hlen : (c.read.map Entry.id).length = c.cursor := by rw [List.length_map, hw.read_length]
      rw [readIds_eq, cursor]
      unfold Channel.entryIds Channel.readIds
      rw [entries]
      unfold Channel.insert
      cases front with
      | true =>
        rw [if_pos rfl, List.map_append]
        exact List.take_left' hlen
      | false =>
        show ((c.entries ++ [e]).map Entry.id).take c.cursor = _
        rw [← c.read_append_ahead, List.append_assoc, List.map_append]
        exact List.take_left' hlen
    have hold : i ∈ c.entryIds := by
      unfold Channel.entryIds at hi
      rw [entries] at hi
      rcases List.mem_cons.mp ((insert_ids c e front).mem_iff.mp hi) with hnew | hold
      · omega
      · exact hold
    rw [hread]
    exact hlast hold
  | take feeds => cases op <;> first | exact absurd trivial hop | cases feeds
  | @dropDecisions which drops left =>
    subst left
    have hsub : i ∈ c.entryIds := by
      rw [hw.dropDecisions] at hi
      exact (List.Sublist.map _ (left_subset which)).subset hi
    obtain ⟨front, hfront⟩ := List.getLast?_eq_some_iff.mp (hlast hsub)
    obtain ⟨before, rest, hread, rfl, hrest⟩ := List.map_eq_append_iff.mp hfront
    obtain ⟨e, rfl, rfl⟩ := List.map_eq_singleton_iff.mp hrest
    have he : e ∈ c.read := hread ▸ List.mem_append_right _ (List.mem_singleton_self e)
    have hstays : (!c.gone which true e) = true := by
      rw [hw.dropDecisions] at hi
      obtain ⟨e', he', hid⟩ := List.mem_map.mp hi
      rcases List.mem_append.mp he' with hin | hin
      · obtain ⟨hmem, hkept⟩ := List.mem_filter.mp hin
        have heq := hw.eq_of_id (List.mem_of_mem_take hmem) (List.mem_of_mem_take he) hid
        exact heq ▸ hkept
      · exact absurd hid.symm (hw.not_both he (List.mem_filter.mp hin).1)
    rw [dropDecisions_readIds hw]
    unfold Channel.readLeft
    rw [hread, List.filter_append, List.filter_singleton, hstays, cond_true, List.map_append]
    exact List.getLast?_concat
  | setAside sets mem set =>
    subst set
    exact hlast hi
  | @revise entry text revises revised =>
    have hids : c'.entryIds = c.entryIds := by
      rw [revised]
      exact reviseEntries_ids _ _ c.entries
    rw [readIds_eq, hids, show c'.cursor = c.cursor by rw [revised], ← readIds_eq]
    exact hlast (hids ▸ hi)
  | flush flushes =>
    cases op <;> first | exact flushes.elim | exact absurd flushes hop
  | rewind rewinds => subst rewinds; exact absurd trivial hop
  | jump jumps => cases op <;> first | exact jumps.elim | exact absurd trivial hop

/-! ## While an entry is read -/

theorem endHold_reading (r : Router) (id : Option ChannelId) :
    (r.endHold id).reading = r.reading := by
  obtain ⟨hold, h, -⟩ := r.endHold_eq id
  rw [h]

/-- What is read stays so while nothing turns its cursor. -/
theorem apply_reading (hreads : r.reading = some (a, i)) (hop : ¬op.Turns a) :
    (r.apply op).reading = some (a, i) := by
  refine Eq.trans ?_ hreads
  -- A push looks at the queue of its channel only, never at what is read.
  have hpush : ∀ id text label replace front, (r.pushWith id text label replace front).1.reading =
      r.reading := by
    intro id text label replace front
    unfold pushWith
    dsimp only
    split <;> rfl
  cases op with
  | openChannel id label hostTab policy =>
    show (r.openChannel id label hostTab policy).reading = _
    unfold openChannel
    split <;> rfl
  | labelIfMissing id label =>
    show (r.labelIfMissing id label).1.reading = _
    unfold labelIfMissing
    split
    · rfl
    · split
      · split <;> rfl
      · rfl
  | close id =>
    show (r.close id).1.reading = _
    have hne : ¬r.reading.map Prod.fst = some id := by
      rw [hreads]
      exact fun h => hop (Option.some.inj h).symm
    unfold close
    split
    · rfl
    · dsimp only
      rw [endHold_reading]
      dsimp only
      rw [show (if r.lastReader = some id then _ else _ : Router).reading =
        r.reading by split <;> rfl, if_neg hne]
  | focus id =>
    show (r.setFocus id).1.reading = _
    unfold setFocus
    split
    · rfl
    · dsimp only
      split
      · split <;> rfl
      · rfl
  | setMuted id m =>
    show (r.setMuted id m).reading = _
    unfold setMuted
    dsimp only
    split
    · exact endHold_reading _ _
    · rfl
  | authorize id =>
    show (r.authorize id).1.reading = _
    unfold authorize
    split <;> rfl
  | prioritize id =>
    show (r.prioritize id).1.reading = _
    unfold prioritize
    split
    · rfl
    · split <;> rfl
  | push id text label =>
    show (r.push id text label).1.reading = _
    unfold push
    cases r.channel id with
    | none => rfl
    | some c => exact hpush id text label _ false
  | pushWith id text label replace front => exact hpush id text label replace front
  | append id text decision heard =>
    show (r.append id text decision heard).1.reading = _
    have hread := hpush id text none false false
    unfold append
    cases r.channel id with
    | none => rfl
    | some c =>
      dsimp only
      generalize r.pushWith id text none false false = p at hread
      obtain ⟨r₁, _ | entry⟩ := p
      · exact hread
      · exact hread
  | setAside id entry aside =>
    show (r.setAside id entry aside).1.reading = _
    unfold setAside
    split
    · rfl
    · split <;> rfl
  | flush id =>
    cases id with
    | some id => exact endHold_reading (r.dropAnnounce id) (some id)
    | none => exact absurd (.inr rfl) hop
  | setFocusOnly _ | dropDecisions _ _ | endBatch _ | revise _ _ _ => rfl
  | _ => exact absurd trivial hop

/-- **Behind the entry read the cursor stays**, while nothing turns it. -/
theorem Took.apply (h : r.Took a i) (s : Sound r) (hop : ¬op.Turns a) : (r.apply op).Took a i := by
  obtain ⟨c, hc, hlast⟩ := h.last
  have hid := channel_id hc
  have hclose : op ≠ .close a := by
    rintro rfl
    exact hop rfl
  obtain ⟨c', hc', hed⟩ := channel_edit s hc hclose
  refine ⟨Nat.le_trans h.known (r.nextEntry_le op), apply_reading h.reads hop, c', hc', ?_⟩
  subst hid
  exact edit_last hed (s.batches c (mem_of_channel hc)) hop h.known h.reads hlast

/-- A fed entry was just taken. -/
theorem fed_took {e : Entry} (s : Sound r) (h : r.nextFeed.2 = some (.entry a e)) :
    r.nextFeed.1.Took a e.id := by
  have hfeeds : r.feeds .nextFeed = [.entry a e] := by
    show r.nextFeed.2.toList = _
    rw [h]
    rfl
  obtain ⟨c, es, hc, hun, htaken⟩ := fed_takes hfeeds
  have hw := s.batches c (mem_of_channel hc)
  have hmem : e.id ∈ c.entryIds := by
    have he : e ∈ c.unread := by
      rw [hun]
      exact List.mem_cons_self
    exact List.mem_map_of_mem (List.mem_of_mem_drop (Channel.mem_unread.mp he).1)
  refine ⟨?_, ?_, c.take.1, htaken, fun _ => take_last hw hun⟩
  · exact Nat.le_trans (s.below c (mem_of_channel hc) _ hmem) (r.nextEntry_le .nextFeed)
  · have hfed := r.nextFeed_fed
    generalize hp : r.nextFeed = p at hfed h ⊢
    obtain ⟨r', o⟩ := p
    cases hfed with
    | armed => cases h
    | idle => cases h
    | handoff => cases h
    | entry =>
      obtain ⟨rfl, rfl⟩ := Feed.entry.inj (Option.some.inj h)
      rfl

end Router

end Sonara.L2
