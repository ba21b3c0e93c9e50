import Sonara.L3.Slots

/-!
# The decisions of a run

`Change.accounts` says what one move does to the ids that wait in a channel: some are
voiced, one may be new, and none is lost unless all are dropped. From it follow, move
by move, that no id is voiced twice or in two channels (`Booked`), that none is lost
(`Accounted`), and, while every step keeps decisions in order, that the ids voiced and
then those that wait increase (`Queued`).
-/

namespace Sonara.L3

open Sonara
open Sonara.L2 (ChannelId)
open Sonara.Prose (Speech)

variable {L : Licence} {s : Speech} {ch : ChannelId} {r r' r'' : Rules} {out o : List Action}
  {n n' : Nat} {w w' : Waiting}

/-! ## The ids of a channel -/

/-- The ids that wait, those held behind a summary first. -/
def Waiting.ids (w : Waiting) : List Nat := (w.held ++ w.pending).map Decision.id

/-- The ids that wait in `ch`. -/
def Rules.ids (r : Rules) (ch : ChannelId) : List Nat := (r.waiting ch).ids

/-- The ids voiced in `ch`, in order. -/
def voicedIn (ch : ChannelId) (v : List (ChannelId × Nat)) : List Nat :=
  (v.filter (·.1 = ch)).map Prod.snd

/-- What is held waits for a summary in flight. -/
def Waiting.Behind (w : Waiting) : Prop := w.inflight = 0 → w.held = []

theorem named_eq (ch : ChannelId) (ds : List Decision) :
    named ch ds = (ds.map Decision.id).map (Prod.mk ch) :=
  (List.map_map ..).symm

theorem ids_empty : ({} : Waiting).ids = [] := rfl

/-- The decisions that leave their wait are voiced or join those that are held. -/
theorem Spill.accounts {ds : List Decision} (h : Spill ch out ds w w') :
    ∃ spoken, voiced out = spoken.map (Prod.mk ch) ∧
      (spoken ++ w'.ids).Perm (w.ids ++ ds.map Decision.id) ∧
      (w.pending = [] → w.Behind → spoken ++ w'.ids = w.ids ++ ds.map Decision.id) := by
  cases h with
  | held busy mute capped =>
    refine ⟨[], mute, ?_, fun hp _ => ?_⟩
    · unfold Waiting.ids
      simp only [List.map_append, List.nil_append, List.append_assoc]
      exact (List.perm_append_comm).append_left _
    · simp [Waiting.ids, hp]
  | spoken free voiced =>
    refine ⟨ds.map Decision.id, by rw [voiced, named_eq], List.perm_append_comm, fun hp hb => ?_⟩
    rcases free with hidle | rfl
    · simp [Waiting.ids, hp, hb hidle]
    · simp

/-- What a move does to the ids that wait in a channel. -/
structure Accounts (L : Licence) (ch : ChannelId) (out : List Action) (n : Nat) (w : Waiting)
    (n' : Nat) (w' : Waiting) (spoken new : List Nat) : Prop where
  voiced : voiced out = spoken.map (Prod.mk ch)
  grows : n' = n ∧ new = [] ∨ n' = n + 1 ∧ new = [n + 1] ∧ L.asks ch
  kept : (spoken ++ w'.ids).Perm (w.ids ++ new) ∨
    L.drops ch ∧ spoken = [] ∧ w'.ids = [] ∧ new = []
  ordered : L.orderly → w.Behind → spoken ++ w'.ids = w.ids ++ new ∨ spoken = [] ∧ w'.ids = []

/-- **The accounts of a move.** -/
theorem Change.accounts (h : Change L ch out n w n' w') :
    ∃ spoken new, Accounts L ch out n w n' w' spoken new := by
  -- Most moves voice the head of the queue or nothing.
  have hqueue : ∀ spoken : List Nat, n' = n → L3.voiced out = spoken.map (Prod.mk ch) →
      spoken ++ w'.ids = w.ids → ∃ spoken new, Accounts L ch out n w n' w' spoken new := by
    intro spoken hn hv hids
    have hids : spoken ++ w'.ids = w.ids ++ [] := hids.trans (List.append_nil _).symm
    exact ⟨spoken, [], hv, .inl ⟨hn, rfl⟩, .inl (.of_eq hids), fun _ _ => .inl hids⟩
  -- The pending decisions leave their wait.
  have hspill : ∀ {w₀ : Waiting}, n' = n → Spill ch out w.pending w₀ w' → w₀.held = w.held →
      w₀.pending = [] → (w.Behind → w₀.Behind) →
      ∃ spoken new, Accounts L ch out n w n' w' spoken new := by
    intro w₀ hn hs hheld hpend hbehind
    obtain ⟨spoken, hv, hperm, heq⟩ := hs.accounts
    have hids : w₀.ids ++ w.pending.map Decision.id = w.ids ++ [] := by
      simp [Waiting.ids, hheld, hpend]
    rw [hids] at hperm heq
    exact ⟨spoken, [], hv, .inl ⟨hn, rfl⟩, .inl hperm, fun _ hb => .inl (heq hpend (hbehind hb))⟩
  cases h with
  | calm mute armed => exact hqueue [] rfl mute rfl
  | asked asks mute id armed waits wait =>
    refine ⟨[], [n + 1], mute, .inr ⟨rfl, rfl, asks⟩, .inl (.of_eq ?_), fun _ _ => .inl ?_⟩ <;>
      simp [Waiting.ids, id]
  | atOnce asks id orderly spill =>
    obtain ⟨spoken, hv, hperm, heq⟩ := spill.accounts
    rw [List.map_singleton, id] at hperm heq
    exact ⟨spoken, [n + 1], hv, .inr ⟨rfl, rfl, asks⟩, .inl hperm,
      fun ho hb => .inl (heq (orderly ho) hb)⟩
  | leadSettles mute armed => exact hqueue [] rfl mute rfl
  | leadGone spill => exact hspill rfl spill rfl rfl fun hb => hb
  | settleWaits lead mute => exact hqueue [] rfl mute rfl
  | settles busy spill =>
    refine hspill rfl spill rfl rfl fun hb hidle => hb ?_
    exact Nat.le_zero.mp (hidle ▸ busy)
  | capped voiced =>
    refine hqueue _ rfl (voiced.trans (named_eq ch w.held)) ?_
    simp [Waiting.ids]
  | answered kept mine orderly =>
    rcases mine with ⟨rfl, hv⟩ | ⟨rfl, hv⟩
    · refine hqueue _ rfl (hv.trans (named_eq ch w.held)) ?_
      simp [Waiting.ids]
    · exact hqueue [] rfl hv rfl
  | flushed voiced orderly =>
    refine ⟨(w.pending ++ w.held).map Decision.id, [], voiced.trans (named_eq ch _),
      .inl ⟨rfl, rfl⟩, .inl ?_, fun ho _ => .inl ?_⟩
    · rw [ids_empty, List.append_nil, List.append_nil]
      exact List.perm_append_comm.map _
    · rw [ids_empty, List.append_nil, List.append_nil]
      rcases orderly ho with hp | hh
      · simp [Waiting.ids, hp]
      · simp [Waiting.ids, hh]
  | dropped drops mute =>
    exact ⟨[], [], mute, .inl ⟨rfl, rfl⟩, .inr ⟨drops, rfl, rfl, rfl⟩, fun _ _ => .inr ⟨rfl, rfl⟩⟩

/-- A move that keeps decisions in order keeps what is held behind a summary. -/
theorem Change.behind (h : Change L ch out n w n' w') (ho : L.orderly) (hb : w.Behind) :
    w'.Behind := by
  have hspill : ∀ {w₀ : Waiting} {ds : List Decision}, Spill ch out ds w₀ w' → w₀.Behind →
      w'.Behind := by
    intro w₀ ds hs hb
    cases hs with
    | held busy mute capped => exact fun hidle => absurd busy (by rw [hidle]; exact Nat.lt_irrefl 0)
    | spoken free voiced => exact hb
  cases h with
  | calm mute armed => exact hb
  | asked asks mute id armed waits wait => exact hb
  | atOnce asks id orderly spill => exact hspill spill hb
  | leadSettles mute armed => exact hb
  | leadGone spill => exact hspill spill hb
  | settleWaits lead mute => exact hb
  | settles busy spill => exact hspill spill fun hidle => hb (Nat.le_zero.mp (hidle ▸ busy))
  | capped voiced => exact fun _ => rfl
  | @answered m held kept mine orderly =>
    intro hidle
    have hidle : m = 0 := hidle
    by_cases hbusy : 0 < w.inflight
    · exact (orderly ho hbusy).resolve_right (by omega)
    · have hnone := hb (by omega)
      rcases mine with ⟨rfl, -⟩ | ⟨rfl, -⟩
      · rfl
      · exact hnone
  | flushed voiced orderly => exact fun _ => rfl
  | dropped drops mute => exact fun _ => rfl

/-! ## No id is voiced twice -/

/-- `d` was voiced in `ch`, or waits there. -/
def Known (v : List (ChannelId × Nat)) (r : Rules) (ch : ChannelId) (d : Nat) : Prop :=
  (ch, d) ∈ v ∨ d ∈ r.ids ch

/-- The ids voiced so far (`v`) and those that wait: each once, in one channel. -/
structure Booked (v : List (ChannelId × Nat)) (r : Rules) : Prop where
  once : v.Nodup
  waits : ∀ ch, (r.ids ch).Nodup
  fresh : ∀ {ch d}, d ∈ r.ids ch → (ch, d) ∉ v
  owner : ∀ {ch a d}, Known v r ch d → Known v r a d → ch = a
  bound : ∀ {ch d}, Known v r ch d → d ≤ r.nextDecision

/-- A channel that a move leaves alone. -/
theorem ids_congr {a : ChannelId} (h : r'.waiting a = r.waiting a) : r'.ids a = r.ids a :=
  congrArg Waiting.ids h

/-- A move voices an id at most once, and never one that still waits. -/
theorem Move.booked {v : List (ChannelId × Nat)} (m : Move L r r' out) (b : Booked v r) :
    Booked (v ++ voiced out) r' := by
  obtain ⟨⟨ch, hothers, hchange⟩, -⟩ := m
  obtain ⟨spoken, new, acc⟩ := hchange.accounts
  have hself : r'.ids ch = (r'.waiting ch).ids := rfl
  -- What is voiced or waits now in `ch` waited there before, or is the new id.
  have hsource : ∀ {d}, d ∈ spoken ∨ d ∈ r'.ids ch → d ∈ r.ids ch ∨ d = r.nextDecision + 1 ∧
      r'.nextDecision = r.nextDecision + 1 := by
    intro d hd
    have hnew : d ∈ new → d = r.nextDecision + 1 ∧ r'.nextDecision = r.nextDecision + 1 := by
      intro h
      rcases acc.grows with ⟨-, rfl⟩ | ⟨hn, rfl, -⟩
      · cases h
      · exact ⟨List.mem_singleton.mp h, hn⟩
    rcases acc.kept with hperm | ⟨-, hs, hi, -⟩
    · have hmem := hperm.mem_iff.mp (List.mem_append.mpr hd)
      exact (List.mem_append.mp hmem).imp_right hnew
    · rw [hself, hs, hi] at hd
      rcases hd with hd | hd <;> cases hd
  have hgrow : r.nextDecision ≤ r'.nextDecision := by
    rcases acc.grows with ⟨hn, -⟩ | ⟨hn, -⟩ <;> omega
  have hnodup : (spoken ++ r'.ids ch).Nodup := by
    rcases acc.kept with hperm | ⟨-, hs, hi, -⟩
    · refine hperm.nodup_iff.mpr ?_
      rcases acc.grows with ⟨-, rfl⟩ | ⟨-, rfl, -⟩
      · rw [List.append_nil]
        exact b.waits ch
      · refine List.nodup_append'.mpr ⟨b.waits ch, List.nodup_singleton _, ?_⟩
        intro d hd hnew
        have hle := b.bound (v := v) (.inr hd)
        have he := List.mem_singleton.mp hnew
        omega
    · rw [hself, hs, hi]
      exact List.nodup_nil
  have hvoiced : ∀ {a d}, (a, d) ∈ voiced out → a = ch ∧ d ∈ spoken := by
    intro a d h
    rw [acc.voiced] at h
    obtain ⟨d', hd', he⟩ := List.mem_map.mp h
    cases he
    exact ⟨rfl, hd'⟩
  -- What is known now was known in the same channel, or is the new id.
  have hknown : ∀ {a d}, Known (v ++ voiced out) r' a d → Known v r a d ∨
      a = ch ∧ d = r.nextDecision + 1 ∧ r'.nextDecision = r.nextDecision + 1 := by
    intro a d h
    rcases h with h | h
    · rcases List.mem_append.mp h with h | h
      · exact .inl (.inl h)
      · obtain ⟨rfl, hd⟩ := hvoiced h
        exact (hsource (.inl hd)).imp .inr fun h => ⟨rfl, h⟩
    · by_cases ha : a = ch
      · subst ha
        exact (hsource (.inr h)).imp .inr fun h => ⟨rfl, h⟩
      · rw [ids_congr (hothers a ha)] at h
        exact .inl (.inr h)
  refine ⟨?_, fun a => ?_, fun {a d} hd hv => ?_, fun {a a' d} h h' => ?_, fun {a d} h => ?_⟩
  · refine List.nodup_append'.mpr ⟨b.once, ?_, fun p hp hv => ?_⟩
    · rw [acc.voiced]
      exact (List.Nodup.of_append_left hnodup).map fun _ _ h => congrArg Prod.snd h
    · obtain ⟨a, d⟩ := p
      obtain ⟨rfl, hd⟩ := hvoiced hv
      rcases hsource (.inl hd) with hw | ⟨rfl, -⟩
      · exact b.fresh hw hp
      · have := b.bound (.inl hp)
        omega
  · by_cases ha : a = ch
    · rw [ha]
      exact List.Nodup.of_append_right hnodup
    · rw [ids_congr (hothers a ha)]
      exact b.waits a
  · rcases List.mem_append.mp hv with hv | hv
    · -- Voiced before: neither new nor waiting before.
      by_cases ha : a = ch
      · subst ha
        rcases hsource (.inr hd) with hw | ⟨rfl, -⟩
        · exact b.fresh hw hv
        · have := b.bound (.inl hv)
          omega
      · rw [ids_congr (hothers a ha)] at hd
        exact b.fresh hd hv
    · obtain ⟨rfl, hs⟩ := hvoiced hv
      exact (List.nodup_append'.mp hnodup).2.2 hs hd
  · rcases hknown h with h | ⟨rfl, hd, -⟩
    · rcases hknown h' with h' | ⟨rfl, hd, -⟩
      · exact b.owner h h'
      · have := b.bound h
        omega
    · rcases hknown h' with h' | ⟨rfl, -⟩
      · have := b.bound h'
        omega
      · rfl
  · rcases hknown h with h | ⟨-, hd, hn⟩
    · exact Nat.le_trans (b.bound h) hgrow
    · omega

theorem Moves.booked {v : List (ChannelId × Nat)} (p : Moves L r r' out) (b : Booked v r) :
    Booked (v ++ voiced out) r' := by
  refine Lib.Path.lift (R := fun r r' out => ∀ v, Booked v r → Booked (v ++ voiced out) r') ?_ ?_
    p v b
  · intro r v b
    rw [voiced_nil, List.append_nil]
    exact b
  · intro r r' r'' out o ih m v b
    have hb := m.booked (ih v b)
    rwa [List.append_assoc, ← voiced_append] at hb

/-! ## No id is lost -/

/-- What a path of moves does to the ids that waited, and to those it gave out. -/
structure Accounted (L : Licence) (r r' : Rules) (out : List Action) : Prop where
  grows : r.nextDecision ≤ r'.nextDecision
  kept : ∀ {ch d}, d ∈ r.ids ch → d ∈ r'.ids ch ∨ (ch, d) ∈ voiced out ∨ L.drops ch
  given : ∀ {d}, r.nextDecision < d → d ≤ r'.nextDecision →
    ∃ ch, L.asks ch ∧ (d ∈ r'.ids ch ∨ (ch, d) ∈ voiced out ∨ L.drops ch)

/-- After a move every id that waited waits, was voiced, or was dropped where that is allowed. -/
theorem Move.accounted (m : Move L r r' out) : Accounted L r r' out := by
  obtain ⟨⟨ch, hothers, hchange⟩, -⟩ := m
  obtain ⟨spoken, new, acc⟩ := hchange.accounts
  have hgo : ∀ {d}, d ∈ r.ids ch ∨ d ∈ new →
      d ∈ r'.ids ch ∨ (ch, d) ∈ voiced out ∨ L.drops ch := by
    intro d hd
    rcases acc.kept with hperm | ⟨hdrop, -⟩
    · rcases List.mem_append.mp (hperm.mem_iff.mpr (List.mem_append.mpr hd)) with hs | hi
      · rw [acc.voiced]
        exact .inr (.inl (List.mem_map_of_mem hs))
      · exact .inl hi
    · exact .inr (.inr hdrop)
  refine ⟨?_, fun {a d} hd => ?_, fun {d} hlt hle => ?_⟩
  · rcases acc.grows with ⟨hn, -⟩ | ⟨hn, -⟩ <;> omega
  · by_cases ha : a = ch
    · subst ha
      exact hgo (.inl hd)
    · rw [ids_congr (hothers a ha)]
      exact .inl hd
  · rcases acc.grows with ⟨hn, -⟩ | ⟨hn, hnew, hask⟩
    · omega
    · have hd : d = r.nextDecision + 1 := by omega
      refine ⟨ch, hask, hgo (.inr ?_)⟩
      rw [hnew, hd]
      exact List.mem_singleton.mpr rfl

/-- After a path of moves every id is accounted for. -/
theorem Moves.accounted (p : Moves L r r' out) : Accounted L r r' out := by
  refine Lib.Path.lift (R := Accounted L) ?_ ?_ p
  · exact fun r => ⟨Nat.le_refl _, fun h => .inl h, fun hlt hle => absurd hle (Nat.not_le.mpr hlt)⟩
  · intro r r' r'' out o acc m
    have hm := m.accounted
    -- What waits after the first part is followed through the second.
    have hthen : ∀ {ch d}, d ∈ r'.ids ch ∨ (ch, d) ∈ voiced out ∨ L.drops ch →
        d ∈ r''.ids ch ∨ (ch, d) ∈ voiced (out ++ o) ∨ L.drops ch := by
      intro ch d h
      rw [voiced_append, List.mem_append]
      rcases h with h | h | h
      · rcases hm.kept h with h | h | h
        · exact .inl h
        · exact .inr (.inl (.inr h))
        · exact .inr (.inr h)
      · exact .inr (.inl (.inl h))
      · exact .inr (.inr h)
    refine ⟨Nat.le_trans acc.grows hm.grows, fun h => hthen (acc.kept h), fun {d} hlt hle => ?_⟩
    by_cases hd : d ≤ r'.nextDecision
    · obtain ⟨ch, hask, h⟩ := acc.given hlt hd
      exact ⟨ch, hask, hthen h⟩
    · obtain ⟨ch, hask, h⟩ := hm.given (Nat.lt_of_not_le hd) hle
      refine ⟨ch, hask, ?_⟩
      rw [voiced_append, List.mem_append]
      exact h.imp_right (.imp_left .inr)

/-! ## What waits has a timer -/

/-- Decisions that are pending wait for the settle window or for their lead-in. -/
def Waiting.Timed (w : Waiting) : Prop := w.pending ≠ [] → w.settle.isSome ∨ w.lead.isSome

/-- A change leaves what is pending with a timer. -/
theorem Change.timed (h : Change L ch out n w n' w') (ht : w.Timed) : w'.Timed := by
  have hspill : ∀ {w₀ : Waiting} {ds : List Decision}, Spill ch out ds w₀ w' → w₀.Timed →
      w'.Timed := by
    intro w₀ ds hs ht
    cases hs with
    | held busy mute capped => exact ht
    | spoken free voiced => exact ht
  have hnone : w'.pending = [] → w'.Timed := fun h hne => absurd h hne
  cases h with
  | calm mute armed =>
    intro hne
    rcases armed with rfl | ⟨g, rfl, -⟩
    · exact ht hne
    · exact .inl rfl
  | asked asks mute id armed waits wait => exact fun _ => wait
  | atOnce asks id orderly spill => exact hspill spill ht
  | leadSettles mute armed => exact fun _ => .inl rfl
  | leadGone spill => exact hspill spill fun hne => absurd rfl hne
  | settleWaits lead mute => exact fun _ => .inr lead
  | settles busy spill => exact hspill spill fun hne => absurd rfl hne
  | capped voiced => exact ht
  | answered kept mine orderly => exact ht
  | flushed voiced orderly => exact hnone rfl
  | dropped drops mute => exact hnone rfl

theorem Moves.timed (p : Moves L r r' out) (h : ∀ ch, (r.waiting ch).Timed) :
    ∀ ch, (r'.waiting ch).Timed := by
  refine p.invariant (P := fun r => ∀ ch, (r.waiting ch).Timed) (fun {r r' o} h m a => ?_) h
  obtain ⟨⟨ch, hothers, hchange⟩, -⟩ := m
  by_cases ha : a = ch
  · subst ha
    exact hchange.timed (h a)
  · rw [hothers a ha]
    exact h a

/-! ## The order of decisions -/

/-- The ids voiced in `ch` so far and then those that wait there increase. -/
structure Queued (v : List (ChannelId × Nat)) (r : Rules) (ch : ChannelId) : Prop where
  order : (voicedIn ch v ++ r.ids ch).Pairwise (· < ·)
  bound : ∀ d ∈ voicedIn ch v ++ r.ids ch, d ≤ r.nextDecision
  behind : (r.waiting ch).Behind

theorem voicedIn_append (ch : ChannelId) (v u : List (ChannelId × Nat)) :
    voicedIn ch (v ++ u) = voicedIn ch v ++ voicedIn ch u := by
  unfold voicedIn
  rw [List.filter_append, List.map_append]

theorem voicedIn_map (ch : ChannelId) (ds : List Nat) : voicedIn ch (ds.map (Prod.mk ch)) = ds := by
  unfold voicedIn
  rw [List.filter_eq_self.mpr (by simp), List.map_map]
  exact List.map_id ds

theorem voicedIn_map_ne {a : ChannelId} (h : a ≠ ch) (ds : List Nat) :
    voicedIn a (ds.map (Prod.mk ch)) = [] := by
  unfold voicedIn
  rw [List.filter_eq_nil_iff.mpr (by simp [Ne.symm h])]
  rfl

/-- A move in order keeps the ids of each channel increasing. -/
theorem Move.queued {v : List (ChannelId × Nat)} (m : Move L r r' out) (ho : L.orderly)
    (q : ∀ ch, Queued v r ch) (a : ChannelId) : Queued (v ++ voiced out) r' a := by
  obtain ⟨⟨ch, hothers, hchange⟩, -⟩ := m
  obtain ⟨spoken, new, acc⟩ := hchange.accounts
  have hgrow : r.nextDecision ≤ r'.nextDecision := by
    rcases acc.grows with ⟨hn, -⟩ | ⟨hn, -⟩ <;> omega
  by_cases ha : a = ch
  · subst ha
    obtain ⟨hord, hbound, hbehind⟩ := q a
    -- What is voiced or waits in `a` now, in order.
    have hnow : ∃ new', (voicedIn a (v ++ voiced out) ++ r'.ids a).Sublist
        (voicedIn a v ++ r.ids a ++ new') ∧
          (new' = [] ∨ new' = [r.nextDecision + 1] ∧ r'.nextDecision = r.nextDecision + 1) := by
      rw [voicedIn_append, acc.voiced, voicedIn_map, List.append_assoc]
      rcases acc.ordered ho hbehind with heq | ⟨hs, hi⟩
      · refine ⟨new, ?_, ?_⟩
        · rw [show spoken ++ r'.ids a = r.ids a ++ new from heq, List.append_assoc]
        · rcases acc.grows with ⟨-, hnew⟩ | ⟨hn, hnew, -⟩
          · exact .inl hnew
          · exact .inr ⟨hnew, hn⟩
      · refine ⟨[], ?_, .inl rfl⟩
        rw [show r'.ids a = [] from hi, hs, List.append_nil, List.append_nil, List.append_nil]
        exact List.sublist_append_left _ _
    obtain ⟨new', hsub, hnew⟩ := hnow
    refine ⟨List.Pairwise.sublist hsub ?_, fun d hd => ?_, hchange.behind ho hbehind⟩
    · refine List.pairwise_append.mpr ⟨hord, ?_, fun x hx y hy => ?_⟩
      · rcases hnew with rfl | ⟨rfl, -⟩
        · exact .nil
        · exact List.pairwise_singleton _ _
      · have hx := hbound x hx
        rcases hnew with rfl | ⟨rfl, -⟩
        · cases hy
        · have := List.mem_singleton.mp hy
          omega
    · rcases List.mem_append.mp (hsub.subset hd) with hd | hd
      · exact Nat.le_trans (hbound d hd) hgrow
      · rcases hnew with rfl | ⟨rfl, hn⟩
        · cases hd
        · have := List.mem_singleton.mp hd
          omega
  · obtain ⟨hord, hbound, hbehind⟩ := q a
    have hv : voicedIn a (v ++ voiced out) = voicedIn a v := by
      rw [voicedIn_append, acc.voiced, voicedIn_map_ne ha, List.append_nil]
    refine ⟨?_, fun d hd => ?_, ?_⟩
    · rw [hv, ids_congr (hothers a ha)]
      exact hord
    · rw [hv, ids_congr (hothers a ha)] at hd
      exact Nat.le_trans (hbound d hd) hgrow
    · rw [hothers a ha]
      exact hbehind

theorem Moves.queued {v : List (ChannelId × Nat)} (p : Moves L r r' out) (ho : L.orderly)
    (q : ∀ ch, Queued v r ch) : ∀ ch, Queued (v ++ voiced out) r' ch := by
  refine Lib.Path.lift (R := fun r r' out => ∀ v, (∀ ch, Queued v r ch) →
    ∀ ch, Queued (v ++ voiced out) r' ch) ?_ ?_ p v q
  · intro r v q ch
    rw [voiced_nil, List.append_nil]
    exact q ch
  · intro r r' r'' out o ih m v q ch
    have hq := m.queued ho (ih v q) ch
    rwa [List.append_assoc, ← voiced_append] at hq

end Sonara.L3
