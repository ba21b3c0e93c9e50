import Sonara.L2.Conserved

/-!
# An entry stored read stays read

`Behind i` says that no batch has `i` from its cursor on. Every operation keeps it but a
user's move back and a rewind over `i` itself; a text that is stored read is appended
behind the cursor, so it is never fed.
-/

namespace Sonara.L2

open Sonara (Text)

/-- The operation moves no cursor back at the user's wish. -/
def Op.StaysOn : Op → Prop
  | .nextChannel | .replay _ | .replayFrom _ _ | .stepTo _ _ => False
  | _ => True

/-- The id of the entry fed, of whatever channel. -/
def Feed.id? : Feed → Option Nat
  | .announce .. => none
  | .entry _ e => some e.id

namespace Router

variable {r r' : Router} {a : ChannelId} {c c' : Channel} {op : Op} {i : Nat}

/-- The entry `i` was given out and is ahead of no cursor. -/
structure Behind (i : Nat) (r : Router) : Prop where
  below : i ≤ r.nextEntry
  behind : ∀ c ∈ r.channels, i ∉ c.aheadIds

theorem dropDecisions_aheadIds (hw : c.WellFormed) (which : Resolved) :
    (c.dropDecisions which).1.aheadIds.Sublist c.aheadIds := by
  rw [hw.dropDecisions]
  unfold Channel.aheadIds Channel.ahead
  rw [List.drop_left]
  exact List.Sublist.map _ List.filter_sublist

/-- What is ahead after a rewind was ahead, or is the entry rewound to. -/
theorem rewind_aheadIds {entry : Nat} (h : i ∈ (c.rewind entry).1.aheadIds) :
    i = entry ∨ i ∈ c.aheadIds := by
  unfold Channel.rewind at h
  split at h
  next hyes =>
    obtain ⟨hpos, hlast⟩ := hyes
    rw [Option.any_eq_true] at hlast
    obtain ⟨e, he, hid⟩ := hlast
    have hsplit : c.entries.drop (c.cursor - 1) = e :: c.entries.drop c.cursor := by
      rw [List.drop_eq_getElem?_toList_append, he, Nat.sub_add_cancel hpos]
      rfl
    unfold Channel.aheadIds Channel.ahead at h
    rw [hsplit, List.map_cons, List.mem_cons] at h
    rcases h with h | h
    · exact .inl (h.trans (by simpa using hid))
    · exact .inr h
  next => exact .inr h

/-- What an edit may bring in front of the cursor: the id of its push, the entry it
rewinds over, or what a user's move goes back to. -/
theorem edit_aheadIds (h : Edit r op c c') (hw : c.WellFormed) (hstay : op.StaysOn)
    (hi : i ∈ c'.aheadIds) :
    i ∈ c.aheadIds ∨ i = r.nextEntry + 1 ∨ op = .rewind c.id i := by
  have hsame : c'.entryIds = c.entryIds → c.cursor ≤ c'.cursor → i ∈ c.aheadIds :=
      fun hids hle => by
    rw [aheadIds_eq, hids] at hi
    rw [aheadIds_eq]
    exact (List.drop_sublist_drop_left c.entryIds hle).subset hi
  have hids : c'.entries = c.entries → c'.entryIds = c.entryIds := fun h =>
    congrArg (List.map Entry.id) h
  cases h with
  | keep entries cursor marks => exact .inl (hsame (hids entries) (Nat.le_of_eq cursor.symm))
  | restart pushes fresh starts entries cursor aside decisions =>
    have hmem : i ∈ c'.entryIds := by
      rw [entryIds_split]
      exact List.mem_append_right _ hi
    unfold Channel.entryIds at hmem
    rw [entries] at hmem
    exact .inr (.inl ((List.mem_singleton.mp hmem).trans fresh))
  | insert pushes fresh goesOn stores entries cursor aside decisions =>
    cases hst : r.stores c op with
    | false =>
      rw [hst] at cursor
      rcases List.mem_cons.mp ((insert_unread hw entries cursor).mem_iff.mp hi) with h | h
      · exact .inr (.inl (h.trans fresh))
      · exact .inl h
    | true =>
      rw [hst] at cursor
      obtain ⟨rfl, -⟩ := stores hst
      have hlen : c'.entries.length ≤ c'.cursor := by
        rw [entries, cursor]
        unfold Channel.insert
        simp
      unfold Channel.aheadIds Channel.ahead at hi
      rw [List.drop_eq_nil_of_le hlen] at hi
      cases hi
  | take feeds unread taken =>
    obtain ⟨passed, tail, -, -, htake⟩ := Channel.take_split unread
    refine .inl (hsame (by rw [taken, htake]; rfl) ?_)
    rw [taken, htake]
    show c.cursor ≤ c.cursor + passed.length + 1
    omega
  | dropDecisions drops left =>
    rw [left] at hi
    exact .inl ((dropDecisions_aheadIds hw _).subset hi)
  | setAside sets mem set =>
    rw [set] at hi
    exact .inl hi
  | revise revises revised =>
    refine .inl (hsame ?_ (by rw [revised]))
    rw [revised]
    exact reviseEntries_ids _ _ c.entries
  | flush flushes entries cursor marks =>
    exact .inl (hsame (hids entries) (cursor ▸ hw.cursor_le))
  | @rewind entry rewinds rewound =>
    rw [rewound] at hi
    rcases rewind_aheadIds hi with rfl | h
    · exact .inr (.inr rewinds)
    · exact .inl h
  | jump jumps entries cursor marks place =>
    cases op <;> first | exact hstay.elim | exact jumps.elim

/-- One operation that neither goes back nor rewinds over `i`. -/
theorem Behind.apply (b : Behind i r) (s : Sound r) (hstay : op.StaysOn)
    (hrew : ∀ id, op ≠ .rewind id i) : Behind i (r.apply op) := by
  refine ⟨Nat.le_trans b.below (r.nextEntry_le op), ?_⟩
  have hbelow := b.below
  rcases r.apply_batches s.ids s.batches op with ⟨f, hf, hmap⟩ | hopens | ⟨id, rfl, hfil⟩
  · rw [hmap]
    intro c' hc' hi
    obtain ⟨c, hc, rfl⟩ := List.mem_map.mp hc'
    rcases edit_aheadIds (hf c hc).2 (s.batches c hc) hstay hi with h | h | h
    · exact b.behind c hc h
    · omega
    · exact hrew _ h
  · obtain ⟨id, label, hostTab, policy, muted, -, happ⟩ := hopens
    rw [happ]
    intro c' hc' hi
    rcases List.mem_append.mp hc' with hc' | hc'
    · exact b.behind c' hc' hi
    · rw [List.mem_singleton.mp hc'] at hi
      cases hi
  · rw [hfil]
    exact fun c hc => b.behind c (List.mem_filter.mp hc).1

/-- What is behind every cursor is not fed. -/
theorem Behind.not_fed (b : Behind i r) : i ∉ (r.feeds op).filterMap Feed.id? := by
  intro h
  obtain ⟨f, hf, hid⟩ := List.mem_filterMap.mp h
  cases f with
  | announce => cases hid
  | entry a e =>
    obtain rfl := Option.some.inj hid
    obtain ⟨c, es, hc, hun, -⟩ := fed_takes (feeds_single hf)
    have hmem : e ∈ c.unread := hun ▸ List.mem_cons_self
    exact b.behind c (mem_of_channel hc) (List.mem_map_of_mem (Channel.mem_unread.mp hmem).1)

theorem append_open {text : Text} {decision heard : Bool}
    (h : (r.append a text decision heard).2 = some i) : ∃ c, r.channel a = some c := by
  unfold append at h
  split at h
  · cases h
  next c hc => exact ⟨c, hc⟩

/-- The id a push into an open channel gives out is the next one. -/
theorem append_id {text : Text} {decision heard : Bool}
    (h : (r.append a text decision heard).2 = some i) : i = r.nextEntry + 1 := by
  obtain ⟨c, hc⟩ := append_open h
  have hopen : r.isOpen a = true := isOpen_iff.mpr ⟨c, hc⟩
  unfold append pushWith at h
  simp only [hc, hopen, Bool.not_true, Bool.false_eq_true, if_false] at h
  exact (Option.some.inj h).symm

/-- A heard text, appended with nothing unread and nothing being read, is behind the
cursor. -/
theorem append_behind (s : Sound r) {text : Text} {decision : Bool}
    (h : (r.append a text decision true).2 = some i)
    (hread : ∀ c, r.channel a = some c → c.pending = 0) (hno : r.reading.map Prod.fst ≠ some a) :
    Behind i (r.apply (.append a text decision true)) := by
  obtain ⟨c, hc⟩ := append_open h
  have hi := append_id h
  have hnext : (r.apply (.append a text decision true)).nextEntry = r.nextEntry + 1 := by
    rcases r.apply_nextEntry (.append a text decision true) with ⟨-, hnone⟩ | ⟨h, -⟩
    · exact absurd rfl (hnone a (mem_ids_of_channel hc))
    · exact h
  have hst : ∀ c ∈ r.channels, c.id = a → r.stores c (.append a text decision true) = true := by
    intro c' hmem hid
    have hc' := channel_of_mem s.ids hmem
    rw [hid] at hc'
    have hreading : r.reading.any (·.1 == a) = false := by
      cases hr : r.reading with
      | none => rfl
      | some p =>
        rw [hr] at hno
        simpa using hno
    show (true && !(decide (0 < c'.pending) || r.reading.any (·.1 == a))) = true
    rw [hread c' hc', hreading]
    rfl
  refine ⟨by omega, fun c' hc' hmem => ?_⟩
  rw [show (r.apply (.append a text decision true)).channels =
    _ from append_eq s.ids a text decision true] at hc'
  obtain ⟨c₁, hc₁, rfl⟩ := List.mem_map.mp hc'
  split at hmem
  next hid =>
    -- Its cursor stands at the end.
    unfold Channel.aheadIds Channel.ahead appended at hmem
    rw [hst c₁ hc₁ hid] at hmem
    simp at hmem
  next hid =>
    have := s.below c₁ hc₁ i (by
      rw [entryIds_split]
      exact List.mem_append_right _ hmem)
    omega

/-- What was fed was given out. -/
theorem fed_below (ops : List Op) :
    ∀ i ∈ (machine.out ops).filterMap Feed.id?, i ≤ (machine.state ops).nextEntry := by
  induction ops using List.reverseRecOn with
  | nil => exact fun i h => absurd h List.not_mem_nil
  | append_singleton ops op ih =>
    have s := state_sound ops
    rw [machine.out_snoc, machine.state_snoc]
    intro i hi
    refine Nat.le_trans ?_ ((machine.state ops).nextEntry_le op)
    rw [List.filterMap_append, List.mem_append] at hi
    rcases hi with hi | hi
    · exact ih i hi
    · obtain ⟨f, hf, hid⟩ := List.mem_filterMap.mp hi
      cases f with
      | announce => cases hid
      | entry a e =>
        obtain rfl := Option.some.inj hid
        obtain ⟨c, es, hc, hun, -⟩ := fed_takes (feeds_single hf)
        have hmem : e ∈ c.unread := hun ▸ List.mem_cons_self
        refine s.below c (mem_of_channel hc) e.id (List.mem_map_of_mem ?_)
        exact List.mem_of_mem_drop (Channel.mem_unread.mp hmem).1

/-- **A text stored read is never fed**, unless the user goes back: after it was appended,
no run without a user's move feeds it, whatever else is rewound. -/
theorem stored_unfed (pre : List Op) {text : Text} {decision : Bool}
    (h : ((machine.state pre).append a text decision true).2 = some i)
    (hread : ∀ c, (machine.state pre).channel a = some c → c.pending = 0)
    (hno : (machine.state pre).reading.map Prod.fst ≠ some a) (seg : List Op)
    (hstay : ∀ op ∈ seg, op.StaysOn)
    (hrew : ∀ seg₁ id x seg₂, seg = seg₁ ++ .rewind id x :: seg₂ → x ≠ i ∨
      x ∈ (machine.out (pre ++ .append a text decision true :: seg₁)).filterMap Feed.id?) :
    Behind i (machine.state (pre ++ .append a text decision true :: seg)) ∧
      i ∉ (machine.out (pre ++ .append a text decision true :: seg)).filterMap Feed.id? := by
  induction seg using List.reverseRecOn with
  | nil =>
    refine ⟨?_, ?_⟩
    · rw [machine.state_snoc]
      exact append_behind (state_sound pre) h hread hno
    · rw [machine.out_snoc, List.filterMap_append, List.mem_append]
      rintro (hi | hi)
      · have := fed_below pre i hi
        have := append_id h
        omega
      · exact absurd hi List.not_mem_nil
  | append_singleton seg op ih =>
    obtain ⟨hb, hfed⟩ := ih (fun op hop => hstay op (List.mem_append_left _ hop))
      fun seg₁ id x seg₂ hseg => hrew seg₁ id x (seg₂ ++ [op]) (by rw [hseg]; simp)
    rw [← List.cons_append, ← List.append_assoc, machine.state_snoc, machine.out_snoc,
      List.filterMap_append, List.mem_append, not_or]
    refine ⟨hb.apply (state_sound _) (hstay op (by simp)) ?_, hfed, hb.not_fed⟩
    -- What is rewound over was fed, and `i` was not.
    rintro id rfl
    rcases hrew seg id i [] rfl with hne | hmem
    · exact hne rfl
    · exact hfed hmem

end Router

end Sonara.L2
