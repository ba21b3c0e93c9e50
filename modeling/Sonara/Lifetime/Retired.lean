import Mathlib.Data.Finset.Card
import Sonara.Lifetime.Steps

/-!
# Nothing accepted is lost

The clients that count are the connections that joined and did not leave (`Clients`), so where the
monitor reads no client, every one had left. With that each step of each thread keeps `Inv`, and so
does every run (`nothing_lost`).
-/

namespace Sonara.Lifetime

open Lib (Logged)

variable {S : Setup} {s s' : Shared} {who : Who}

/-! ## The clients -/

namespace Conn

variable {i : Nat} {c : Conn} {http : Bool}

/-- A task counts its connection as a client only where it then touches. -/
theorem go_joined {answer : Bool} {r : Shared × Conn} (h : go http i answer s c = some r) :
    r.2.joined = c.joined ∨ r.2.phase = .counted := by
  unfold go dispatch admitRequest at h
  repeat' split at h
  all_goals first
    | cases h; exact .inl rfl
    | cases h; exact .inr rfl
    | cases h

/-- A step over HTTP leaves no stream open. -/
theorem step_streams (hs : Streams http c) {e : Step} {r : Shared × Conn}
    (h : step http i s c e = some r) :
    Streams http r.2 := by
  intro hhttp hj
  cases e with
  | arrive kind =>
    unfold step at h
    dsimp only at h
    split at h
    next hfree =>
      cases h
      have hj : c.joined = true := hj
      rw [hhttp, hj, Bool.and_self, Bool.not_true, Bool.and_false] at hfree
      cases hfree
    · cases h
  | close =>
    unfold step at h
    dsimp only at h
    split at h
    · split at h <;> cases h <;> cases hj
    · cases h
  | go answer =>
    have h : go http i answer s c = some r := h
    rcases go_joined h with hsame | hcounted
    · rw [hsame] at hj
      unfold go at h
      rcases hs hhttp hj with hp | hp | ⟨time, hp⟩
      · rw [hp] at h
        cases h
      · rw [hp] at h
        cases h
        exact .inr (.inr ⟨_, rfl⟩)
      · rw [hp] at h
        cases h
        exact .inl rfl
    · exact .inr (.inl hcounted)

end Conn

/-- The clients are the connections `J`. -/
structure Clients (J : Finset Nat) (conns : Nat → Conn) (n : Nat) : Prop where
  mem : ∀ i, i ∈ J ↔ (conns i).joined = true
  card : J.card = n

/-- The number of clients changes with what its log says of a connection. -/
theorem Clients.step {J : Finset Nat} {conns : Nat → Conn} (C : Clients J conns s.life.clients)
    {i : Nat} {c' : Conn}
    (K : (conns i).Knows i s) (A : Access S (.conn i) s s') (K' : c'.Knows i s') :
    ∃ J', Clients J' (Function.update conns i c') s'.life.clients := by
  have hsame : s'.log.count (.join i) = s.log.count (.join i) →
    s'.log.count (.leave i) = s.log.count (.leave i) →
      s'.life.clients = s.life.clients → ∃ J', Clients J'
        (Function.update conns i c') s'.life.clients := by
    intro hjoin hleave hclients
    refine ⟨J, fun j => ?_, C.card.trans hclients.symm⟩
    rw [C.mem j]
    by_cases hj : j = i
    · subst hj
      rw [Function.update_self]
      have h := K.counts.joined
      have h' := K'.counts.joined
      rw [hjoin, hleave] at h'
      cases hc : (conns j).joined <;> cases hc' : c'.joined <;> rw [hc] at h <;> rw [hc'] at h' <;>
        simp only [Bool.toNat_false, Bool.toNat_true] at h h' ⊢ <;> omega
    · rw [Function.update_of_ne hj]
  have hact : ∀ e, Allowed S (.conn i) s e → s'.log = s.log ++ [e] →
    s'.life.clients = (s.act e).life.clients →
      ∃ J', Clients J' (Function.update conns i c') s'.life.clients := by
    intro e hallowed hlog hclients
    have hj := K.counts.joined
    have hj' := K'.counts.joined
    rw [hlog, List.count_append, List.count_append, List.count_singleton, List.count_singleton]
      at hj'
    cases e with
    | join j =>
      -- It counted for nothing before, and does now.
      obtain rfl : i = j := Who.conn.inj (hallowed.own j rfl)
      have hne : ((Act.join i : Act) == .leave i) = false := by simp
      rw [beq_self_eq_true, if_pos rfl, hne, if_neg Bool.false_ne_true] at hj'
      have hc : (conns i).joined = false := by
        cases hc : (conns i).joined with
        | false => rfl
        | true =>
          rw [hc, Bool.toNat_true] at hj
          have := Bool.toNat_le c'.joined
          omega
      have hc' : c'.joined = true := by
        cases hc' : c'.joined with
        | true => rfl
        | false =>
          rw [hc'] at hj'
          rw [hc] at hj
          simp only [Bool.toNat_false] at hj hj'
          omega
      refine ⟨insert i J, fun j => ?_, ?_⟩
      · by_cases hji : j = i
        · subst hji
          rw [Function.update_self, hc']
          exact ⟨fun _ => rfl, fun _ => Finset.mem_insert_self _ _⟩
        · rw [Function.update_of_ne hji, Finset.mem_insert, C.mem j, or_iff_right hji]
      · have hnew : i ∉ J := by rw [C.mem i, hc]; exact Bool.false_ne_true
        rw [Finset.card_insert_of_notMem hnew, C.card, hclients]
        rfl
    | leave j =>
      obtain rfl : i = j := Who.conn.inj (hallowed.own j rfl)
      have hne : ((Act.leave i : Act) == .join i) = false := by simp
      rw [beq_self_eq_true, if_pos rfl, hne, if_neg Bool.false_ne_true] at hj'
      have hc : (conns i).joined = true := by
        cases hc : (conns i).joined with
        | true => rfl
        | false =>
          rw [hc, Bool.toNat_false] at hj
          omega
      have hc' : c'.joined = false := by
        cases hc' : c'.joined with
        | false => rfl
        | true =>
          rw [hc'] at hj'
          rw [hc] at hj
          simp only [Bool.toNat_true] at hj hj'
          omega
      refine ⟨J.erase i, fun j => ?_, ?_⟩
      · by_cases hji : j = i
        · subst hji
          rw [Function.update_self, hc']
          exact ⟨fun h => absurd rfl (Finset.mem_erase.mp h).1, fun h => Bool.noConfusion h⟩
        · rw [Function.update_of_ne hji, Finset.mem_erase, C.mem j, and_iff_right hji]
      · have hold : i ∈ J := (C.mem i).mpr hc
        rw [Finset.card_erase_of_mem hold, C.card, hclients]
        rfl
    | _ =>
      refine hsame ?_ ?_ hclients <;> rw [hlog, List.count_append, List.count_singleton] <;> simp
  cases A with
  | nothing => exact hsame rfl rfl rfl
  | take _ => exact hsame rfl rfl rfl
  | free _ => exact hsame rfl rfl rfl
  | act e h => exact hact e h (act_log s e) rfl
  | last e h _ => exact hact e h (act_log s e) rfl

/-- Only a connection changes the number of clients. -/
theorem Access.clients (A : Access S who s s') (hwho : ∀ i, who ≠ .conn i) :
    s'.life.clients = s.life.clients := by
  have hact : ∀ e, Allowed S who s e → (s.act e).life.clients = s.life.clients := by
    intro e h
    cases e with
    | join i => exact absurd (h.own i rfl) (hwho i)
    | leave i => exact absurd (h.own i rfl) (hwho i)
    | _ => rfl
  cases A with
  | nothing => rfl
  | take _ => rfl
  | free _ => rfl
  | act e h => exact hact e h
  | last e h _ => exact hact e h

/-! ## Every run -/

/-- The invariant of every run. -/
structure Inv (http : Nat → Bool) (S : Setup) (w : World) : Prop where
  books : Books S w.shared
  conns : ∀ i, (w.conns i).Knows i w.shared
  streams : ∀ i, Conn.Streams (http i) (w.conns i)
  hotkey : w.hotkey.Knows w.shared
  monitor : w.monitor.Knows S w.shared
  clients : ∃ J, Clients J w.conns w.shared.life.clients

variable {http : Nat → Bool} {w w' : World}

theorem Inv.left (I : Inv http S w) (h : w.shared.life.clients = 0) : AllLeft w.shared.log := by
  obtain ⟨J, C⟩ := I.clients
  intro i
  have hempty : J = ∅ := Finset.card_eq_zero.mp (C.card.trans h)
  have hnot : (w.conns i).joined = false := by
    rw [Bool.eq_false_iff]
    intro hj
    have hmem := (C.mem i).mpr hj
    rw [hempty] at hmem
    exact absurd hmem (Finset.notMem_empty i)
  rw [(I.conns i).counts.joined, hnot]
  rfl

/-- The start keeps the invariant: nobody is inside. -/
theorem Inv.start (idleExit : Nat) (standalone : Bool) (now : Nat) :
    Inv http ⟨idleExit, standalone, now⟩ (World.start http idleExit standalone now) where
  books :=
    { standalone := rfl
      idleExit := rfl
      keepAlive := fun _ => List.not_mem_nil
      lastActive := rfl
      retiring := ⟨fun h => Bool.noConfusion h, fun ⟨_, h⟩ => absurd h List.not_mem_nil⟩
      exit := rfl
      times := fun _ h => absurd h List.not_mem_nil
      logged := .nil }
  conns _ := .out ⟨rfl, rfl⟩ rfl fun h => Phase.noConfusion h
  streams _ _ h := Bool.noConfusion h
  hotkey := ⟨fun h => absurd rfl h, fun h => Press.noConfusion h⟩
  monitor := trivial
  clients := ⟨∅, fun i => ⟨fun h => absurd h (Finset.notMem_empty i), fun h => Bool.noConfusion h⟩,
    rfl⟩

/-- **Every step keeps the invariant.** -/
theorem Inv.step (I : Inv http S w) {e : Event} (h : World.step http w e = some w') :
    Inv http S w' := by
  cases e with
  | tick n =>
    cases h
    have hm : w.monitor.Knows S { w.shared with now := w.shared.now + n } := by
      have K := I.monitor
      revert K
      cases w.monitor with
      | lockedExpired time =>
        rintro ⟨D, htime, K⟩
        exact ⟨⟨D.lock, D.retiring, D.alone⟩, Nat.le_add_right_of_le htime, K⟩
      | lockedUnkept =>
        rintro ⟨D, K⟩
        exact ⟨⟨D.lock, D.retiring, D.alone⟩, K⟩
      | lockedAlone =>
        rintro ⟨D, K⟩
        exact ⟨⟨D.lock, D.retiring, D.alone⟩, K⟩
      | _ => exact fun K => K
    have B := I.books
    refine ⟨⟨B.standalone, B.idleExit, B.keepAlive, B.lastActive, B.retiring, B.exit, ?_, B.logged⟩,
      fun i => ?_,
      I.streams, ⟨I.hotkey.inside, I.hotkey.admitted⟩, hm, I.clients⟩
    · exact fun time ht => Nat.le_add_right_of_le (B.times time ht)
    · exact ⟨(I.conns i).inside, (I.conns i).admitted, (I.conns i).ending, (I.conns i).counts⟩
  | signal =>
    cases h
    have A : Access S .main w.shared (w.shared.act (.exit .signal)) :=
      .act (.exit .signal) ⟨.inl rfl, (by intro j hj; cases hj), (by intro h; cases h),
        (by intro t ht; cases ht)⟩
    refine ⟨A.books I.books, fun i => (I.conns i).others A fun h => Who.noConfusion h, I.streams,
      I.hotkey.others A fun h => Who.noConfusion h,
      I.monitor.others A fun h => Who.noConfusion h, ?_⟩
    rw [A.clients fun _ h => Who.noConfusion h]
    exact I.clients
  | conn i e =>
    obtain ⟨⟨s', c'⟩, hr, rfl⟩ := Option.map_eq_some_iff.mp h
    obtain ⟨A, K'⟩ := Conn.step_spec I.books (I.conns i) (I.streams i) hr
    obtain ⟨J, C⟩ := I.clients
    refine ⟨A.books I.books, fun j => ?_, fun j => ?_, I.hotkey.others A fun h => Who.noConfusion h,
      I.monitor.others A fun h => Who.noConfusion h, C.step (I.conns i) A K'⟩
    · by_cases hj : j = i
      · subst hj
        show (Function.update w.conns j c' j).Knows j s'
        rwa [Function.update_self]
      · show (Function.update w.conns i c' j).Knows j s'
        rw [Function.update_of_ne hj]
        exact (I.conns j).others A fun h => hj (Who.conn.inj h).symm
    · by_cases hj : j = i
      · subst hj
        show Conn.Streams (http j) (Function.update w.conns j c' j)
        rw [Function.update_self]
        exact Conn.step_streams (I.streams j) hr
      · show Conn.Streams (http j) (Function.update w.conns i c' j)
        rw [Function.update_of_ne hj]
        exact I.streams j
  | press =>
    obtain ⟨⟨s', p'⟩, hr, rfl⟩ := Option.map_eq_some_iff.mp h
    obtain ⟨A, K'⟩ := Press.step_spec I.books I.hotkey hr
    refine ⟨A.books I.books, fun i => (I.conns i).others A fun h => Who.noConfusion h,
      I.streams, K',
      I.monitor.others A fun h => Who.noConfusion h, ?_⟩
    show ∃ J, Clients J w.conns s'.life.clients
    rw [A.clients fun _ h => Who.noConfusion h]
    exact I.clients
  | monitor busy =>
    obtain ⟨⟨s', m'⟩, hr, rfl⟩ := Option.map_eq_some_iff.mp h
    obtain ⟨A, K'⟩ := Monitor.step_spec I.books I.monitor I.left hr
    refine ⟨A.books I.books, fun i => (I.conns i).others A fun h => Who.noConfusion h, I.streams,
      I.hotkey.others A fun h => Who.noConfusion h, K', ?_⟩
    show ∃ J, Clients J w.conns s'.life.clients
    rw [A.clients fun _ h => Who.noConfusion h]
    exact I.clients

/-- **Nothing accepted is lost**, in whatever order the threads take their steps: every access meets
`Rule` with the accesses before it, the exit is the first one requested, and every reply that a
request was carried out has its own request that was. -/
theorem nothing_lost {idleExit : Nat} {standalone : Bool} {now : Nat}
    (h : (World.system http idleExit standalone now).Reaches w) :
    Logged (Rule ⟨idleExit, standalone, now⟩) w.shared.log ∧
      w.shared.life.exit = firstExit w.shared.log ∧
      (∀ time, .retire (.idle time) ∈ w.shared.log → time ≤ w.shared.now) ∧
      ∀ i, w.shared.log.count (.carry (.conn i)) = w.shared.log.count
      (.accept i) + (w.conns i).phase.pending := by
  have I : Inv http ⟨idleExit, standalone, now⟩ w := by
    refine h.invariant (fun s hs => ?_) fun s e s' I hstep => I.step hstep
    rw [show s = World.start http idleExit standalone now from hs]
    exact .start idleExit standalone now
  exact ⟨I.books.logged, I.books.exit, I.books.times, fun i => (I.conns i).counts.replied⟩

/-- A client speaks and leaves. The idle time passes and the monitor reads that no client is left;
then another connects, and what it wants to say comes too late. -/
def visit : List Event :=
  let first := List.replicate 7 (Event.conn 0 (.go true))
  let second := List.replicate 7 (Event.conn 1 (.go true))
  let decide := List.replicate 9 (Event.monitor false)
  [.conn 0 (.arrive (.hello false false))] ++ first ++ [.conn 0 (.arrive .speech)] ++ first ++
    [.conn 0 (.go true), .conn 0 .close, .conn 0 (.go true), .conn 0 (.go true),
      .tick 30] ++ decide ++
    [.conn 1 (.arrive (.hello false false))] ++ second ++ [.monitor false, .monitor false,
    .conn 1 (.arrive .speech), .conn 1 (.go true), .conn 1 (.go true), .conn 1 (.go true)]

/-- Where it leads. -/
def visited : World :=
  let start := World.start (fun _ => false) 30 false 5
  ((World.system (fun _ => false) 30 false 5).run start visit).getD start

theorem visited_reached : (World.system (fun _ => false) 30 false 5).Reaches visited := by
  have hsome : ((World.system (fun _ => false) 30 false 5).run
      (.start (fun _ => false) 30 false 5) visit).isSome := by
    decide +kernel
  obtain ⟨w, hw⟩ := Option.isSome_iff_exists.mp hsome
  refine ⟨_, visit, rfl, ?_⟩
  unfold visited
  dsimp only
  rw [hw]
  rfl

theorem late_refused :
    visited.shared.life.exit = some .idle ∧ .carry (.conn 0) ∈ visited.shared.log ∧
      .refuse 1 ∈ visited.shared.log ∧ Logged (Rule ⟨30, false, 5⟩) visited.shared.log :=
  ⟨by decide +kernel, by decide +kernel, by decide +kernel, (nothing_lost visited_reached).1⟩

/-- A channel's mute is taken after a shutdown was accepted: what starts without the lock is not
kept from starting then. -/
def unmuted : List Event :=
  let go (i n : Nat) := List.replicate n (Event.conn i (.go true))
  [.conn 0 (.arrive (.hello false false))] ++ go 0 7 ++ [.conn 1 (.arrive (.hello false false))] ++
    go 1 7 ++ [.conn 0 (.arrive .unlocked)] ++ go 0 4 ++ [.conn 1 (.arrive .shutdown)] ++
      go 1 5 ++ go 0 1

example :
    ((World.system (fun _ => false) 30 false 5).run
      (.start (fun _ => false) 30 false 5) unmuted).map
      (fun w => (w.shared.log.filter Act.retires, w.shared.log.getLast?)) =
      some ([.retire .shutdown], some (.start 0)) := by
  decide +kernel

end Sonara.Lifetime
