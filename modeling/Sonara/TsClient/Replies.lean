import Mathlib.Data.List.Nodup
import Sonara.TsClient.Connection

/-!
# A reply settles its own request

The requests whose replies are still to be handled (`due`) are in the order of their ids, and
`pending` is a sublist of them: a timeout takes one out, a reply the oldest. So a reply with an
id finds its own request or none, and one without an id finds its own when that has not timed
out. Once it has, the reply is taken for the oldest request that is left (`late_reply_taken`).
-/

namespace Sonara.TsClient

variable {js : JsonText} {w w' : World} {e : Event} {c : Connection} {settled : List Settled}

def Connection.ids (c : Connection) : List Nat := c.pending.map (·.id)

/-! ## Every promise is settled once or pending -/

/-- A promise of a request is settled, once, or pending. -/
structure Books (c : Connection) (settled : List Settled) : Prop where
  once : (settled.map (·.id)).Nodup
  apart : ∀ id ∈ settled.map (·.id), id < c.nextId ∧ id ∉ c.ids
  all : ∀ id, 1 ≤ id → id < c.nextId → id ∈ settled.map (·.id) ∨ id ∈ c.ids
  empty : c.closed = true → c.pending = []

namespace Books

theorem fresh : Books {} [] where
  once := List.nodup_nil
  apart _ hid := by cases hid
  all id h1 hid := by
    have : id < 1 := hid
    omega
  empty _ := rfl

theorem buf (h : Books c settled) (b : Text) : Books { c with buf := b } settled :=
  ⟨h.once, h.apart, h.all, h.empty⟩

theorem ids_filter (key : Nat) :
    { c with pending := c.pending.filter (·.id ≠ key) : Connection }.ids = c.ids.filter
    (· ≠ key) := by
  unfold Connection.ids
  rw [List.filter_map]
  rfl

/-- One promise is settled. -/
theorem one (h : Books c settled) {x : Settled} (hx : x.id ∈ c.ids) (hlt : x.id < c.nextId) :
    Books { c with pending := c.pending.filter (·.id ≠ x.id) } (settled ++ [x]) where
  once := by
    rw [List.map_append, List.nodup_append]
    refine ⟨h.once, List.nodup_singleton _, fun a ha b hb => ?_⟩
    obtain rfl := List.mem_singleton.mp hb
    rintro rfl
    exact (h.apart _ ha).2 hx
  apart id hid := by
    rw [ids_filter, List.mem_filter]
    rw [List.map_append, List.mem_append] at hid
    obtain hid | hid := hid
    · obtain ⟨hlt', hout⟩ := h.apart id hid
      exact ⟨hlt', fun hin => hout hin.1⟩
    · obtain rfl := List.mem_singleton.mp hid
      exact ⟨hlt, fun hin => by simpa using hin.2⟩
  all id h1 hid := by
    rw [ids_filter, List.mem_filter, List.map_append, List.mem_append]
    obtain hs | hp := h.all id h1 hid
    · exact .inl (.inl hs)
    · by_cases hx' : id = x.id
      · exact .inl (.inr (List.mem_singleton.mpr hx'))
      · exact .inr ⟨hp, by simpa using hx'⟩
  empty hc := by
    show c.pending.filter _ = []
    rw [h.empty hc]
    rfl

/-- A request that is refused for its size. -/
theorem refused (h : Books c settled) (hids : ∀ id ∈ c.ids, id < c.nextId) {x : Settled}
    (hx : x.id = c.nextId) : Books { c with nextId := c.nextId + 1 } (settled ++ [x]) where
  once := by
    rw [List.map_append, List.nodup_append]
    refine ⟨h.once, List.nodup_singleton _, fun a ha b hb => ?_⟩
    have hb : b = x.id := List.mem_singleton.mp hb
    have := (h.apart a ha).1
    omega
  apart id hid := by
    show id < c.nextId + 1 ∧ id ∉ c.ids
    rw [List.map_append, List.mem_append] at hid
    obtain hid | hid := hid
    · obtain ⟨hlt, hout⟩ := h.apart id hid
      exact ⟨by omega, hout⟩
    · have hid : id = x.id := List.mem_singleton.mp hid
      refine ⟨by omega, fun hin => ?_⟩
      have := hids id hin
      omega
  all id h1 hid := by
    have hid : id < c.nextId + 1 := hid
    rw [List.map_append, List.mem_append]
    by_cases hn : id = c.nextId
    · exact .inl (.inr (List.mem_singleton.mpr (hn.trans hx.symm)))
    · exact (h.all id h1 (by omega)).imp_left .inl
  empty := h.empty

/-- A request that waits for its reply. -/
theorem request (h : Books c settled) (hc : c.closed = false) {p : Pending} (hp : p.id = c.nextId) :
    Books { c with nextId := c.nextId + 1, pending := c.pending ++ [p] } settled where
  once := h.once
  apart id hid := by
    obtain ⟨hlt, hout⟩ := h.apart id hid
    refine ⟨Nat.lt_succ_of_lt hlt, fun hin => ?_⟩
    have hin : id ∈ (c.pending ++ [p]).map (·.id) := hin
    rw [List.map_append, List.mem_append] at hin
    refine hin.elim hout fun hin => ?_
    have hin : id = p.id := List.mem_singleton.mp hin
    omega
  all id h1 hid := by
    have hid : id < c.nextId + 1 := hid
    show _ ∨ id ∈ (c.pending ++ [p]).map (·.id)
    rw [List.map_append, List.mem_append]
    by_cases hn : id = c.nextId
    · exact .inr (.inr (List.mem_singleton.mpr (hn.trans hp.symm)))
    · exact (h.all id h1 (by omega)).imp_right .inl
  empty hclosed := absurd hclosed (by rw [hc]; exact Bool.false_ne_true)

/-- The close settles what is pending. -/
theorem finish (h : Books c settled) (hn : c.ids.Nodup) (hids : ∀ id ∈ c.ids, id < c.nextId)
    {xs : List Settled} (hxs : xs.map (·.id) = c.ids) :
    Books { c with closed := true, pending := [] } (settled ++ xs) where
  once := by
    rw [List.map_append, hxs, List.nodup_append]
    refine ⟨h.once, hn, fun a ha b hb => ?_⟩
    rintro rfl
    exact (h.apart a ha).2 hb
  apart id hid := by
    rw [List.map_append, hxs, List.mem_append] at hid
    refine ⟨?_, fun hin => by cases hin⟩
    exact hid.elim (fun hid => (h.apart id hid).1) (hids id)
  all id h1 hid := by
    rw [List.map_append, hxs, List.mem_append]
    exact .inl (h.all id h1 hid)
  empty _ := rfl

end Books

/-! ## The order of the replies -/

namespace World

/-- The requests whose replies have not been handled, oldest first. -/
def due (w : World) : List Nat := (w.sent.drop w.seen).filterMap (·.answers) ++ w.unanswered

/-- The line is what it should be. -/
def Reads (js : JsonText) (l : ServerLine) : Prop :=
  reads js l.text (match l.answers with
    | some id => .reply (if l.named then some (.integer id) else none)
    | none => .event) = true

/-- What is asked of the promises. -/
structure Faithful (w : World) : Prop where
  once : (w.settled.map (·.id)).Nodup
  /-- A promise settled by a line is settled by the reply to its own. -/
  own : ∀ x ∈ w.settled, ∀ n, x.cause = .line n → w.sent[n]?.bind (·.answers) = some x.id
  /-- A reply to a request that timed out settles nothing. -/
  late : ∀ x ∈ w.settled, x.cause = .timeout → ∀ n, w.sent[n]?.bind (·.answers) = some x.id →
    ∀ y ∈ w.settled, y.cause ≠ .line n
  closed : w.conn.closed = true → ∀ id, 1 ≤ id → id < w.conn.nextId → id ∈ w.settled.map (·.id)

/-- The step does not handle a reply without an id whose request is no longer pending while
another one is. -/
def InTime (w : World) : Event → Prop
  | .line => ∀ l id, w.sent[w.seen]? = some l → l.answers = some id → l.named = false →
      id ∈ w.conn.ids ∨ w.conn.pending = []
  | _ => True

structure Inv (js : JsonText) (w : World) : Prop where
  handled : w.seen ≤ w.sent.length
  lines : ∀ l ∈ w.sent, Reads js l
  coming : w.conn.buf ++ w.wire = (w.sent.drop w.seen).flatMap fun l => l.text ++ ['\n']
  ordered : w.due.Pairwise (· < ·)
  fresh : ∀ id ∈ w.due, id < w.conn.nextId
  pending : w.conn.ids.Sublist w.due
  books : Books w.conn w.settled
  own : ∀ x ∈ w.settled, ∀ n, x.cause = .line n → w.sent[n]?.bind (·.answers) = some x.id

theorem Inv.faithful (h : Inv js w) : Faithful w where
  once := h.books.once
  own := h.own
  late x hx ht n hn y hy hyn := by
    have hid : y.id = x.id := Option.some.inj ((h.own y hy n hyn).symm.trans hn)
    have hxy : y = x := List.inj_on_of_nodup_map h.books.once hy hx hid
    rw [hxy, ht] at hyn
    cases hyn
  closed hc id h1 hid := by
    obtain hs | hp := h.books.all id h1 hid
    · exact hs
    · rw [Connection.ids, h.books.empty hc] at hp
      cases hp

theorem init_inv : Inv js {} where
  handled := Nat.le_refl _
  lines l hl := by cases hl
  coming := rfl
  ordered := List.Pairwise.nil
  fresh id hid := by cases hid
  pending := List.Sublist.refl _
  books := Books.fresh
  own x hx := by cases hx

theorem Inv.ids_lt (h : Inv js w) : ∀ id ∈ w.conn.ids, id < w.conn.nextId :=
  fun id hid => h.fresh id (h.pending.subset hid)

theorem Inv.ids_nodup (h : Inv js w) : w.conn.ids.Nodup :=
  (h.ordered.sublist h.pending).imp fun hlt => Nat.ne_of_lt hlt

/-- A promise is settled by something else than a line. -/
theorem Inv.own_append (h : Inv js w) {xs : List Settled} (hxs : ∀ x ∈ xs, ∀ n, x.cause ≠ .line n) :
    ∀ x ∈ w.settled ++ xs, ∀ n, x.cause = .line n → w.sent[n]?.bind (·.answers) = some x.id := by
  intro x hx n hn
  exact (List.mem_append.mp hx).elim (fun hx => h.own x hx n hn) fun hx => absurd hn (hxs x hx n)

end World

/-! ## What a call does -/

/-- A request on a closed connection, one that is too long, and one that is written. -/
theorem Connection.request_cases (js : JsonText) (c : Connection) (type : Text)
    (fields : List (Text × Json)) (timeoutMs : Option Nat) :
    c.request js type fields timeoutMs = (c, [], none) ∨
      (∃ out, c.request js type fields timeoutMs =
        ({ c with nextId := c.nextId + 1 }, [(c.nextId, out)], none)) ∨
      (c.closed = false ∧ ∃ p : Pending, p.id = c.nextId ∧ c.request js type fields timeoutMs =
        ({ c with nextId := c.nextId + 1, pending := c.pending ++ [p] }, [], some c.nextId)) := by
  unfold Connection.request
  by_cases hc : c.closed = true
  · exact .inl (if_pos hc)
  · have hc' : c.closed = false := Bool.not_eq_true _ ▸ hc
    rw [if_neg hc]
    by_cases hlen : (Lib.Utf8.encode (requestLine js type fields c.nextId)).length > MAX_LINE
    · exact .inr (.inl ⟨_, if_pos hlen⟩)
    · exact .inr (.inr ⟨hc', _, rfl, if_neg hlen⟩)

/-- A timer that fires takes its request out. -/
theorem Connection.timeout_some {c c' : Connection} {id : Nat} {settles : Settles}
    (h : c.timeout id = some (c', settles)) : id ∈ c.ids ∧ ∃ out,
      c' = { c with pending := c.pending.filter (·.id ≠ id) } ∧ settles = [(id, out)] := by
  unfold Connection.timeout at h
  obtain ⟨p, hp, h⟩ := Option.bind_eq_some_iff.mp h
  obtain ⟨ms, -, h⟩ := Option.map_eq_some_iff.mp h
  obtain ⟨rfl, rfl⟩ := Prod.mk.inj h
  have hid : p.id = id := by simpa using List.find?_some hp
  exact ⟨hid ▸ List.mem_map_of_mem (List.mem_of_find?_eq_some hp), _, rfl, rfl⟩

/-- A reply with an id finds the request with this id, or nothing. -/
theorem Connection.onLine_named {line : Text} {id : Nat}
    (h : (js.parse line).map kind = some (.reply (some (.integer id)))) :
    (id ∉ c.ids ∧ c.onLine js line = (c, [])) ∨ (id ∈ c.ids ∧ ∃ out, c.onLine js line =
      ({ c with pending := c.pending.filter (·.id ≠ id) }, [(id, out)])) := by
  obtain ⟨m, hm, hk⟩ := Option.map_eq_some_iff.mp h
  simp only [Connection.onLine, hm, hk]
  have hnum : ∀ p : Pending, decide (Number.integer p.id = .integer id) = decide (p.id = id) := by
    intro p
    simp only [Number.integer.injEq, Int.natCast_inj]
  simp only [hnum]
  cases hf : c.pending.find? fun p => decide (p.id = id) with
  | none =>
    refine .inl ⟨fun hin => ?_, rfl⟩
    obtain ⟨p, hp, hpid⟩ := List.mem_map.mp hin
    simpa [hpid] using List.find?_eq_none.mp hf p hp
  | some p =>
    have hid : p.id = id := by simpa using List.find?_some hf
    refine .inr ⟨hid ▸ List.mem_map_of_mem (List.mem_of_find?_eq_some hf), outcome m, ?_⟩
    rw [Option.map_some, hid]

/-- A reply without an id finds the oldest request. -/
theorem Connection.onLine_unnamed {line : Text}
    (h : (js.parse line).map kind = some (.reply none)) :
    (c.pending = [] ∧ c.onLine js line = (c, [])) ∨
    (∃ id, c.ids.head? = some id ∧ ∃ out, c.onLine js line =
      ({ c with pending := c.pending.filter (·.id ≠ id) }, [(id, out)])) := by
  obtain ⟨m, hm, hk⟩ := Option.map_eq_some_iff.mp h
  simp only [Connection.onLine, hm, hk]
  cases hp : c.pending with
  | nil => exact .inl ⟨rfl, by simp⟩
  | cons p rest => exact .inr ⟨p.id, by simp [Connection.ids, hp], outcome m, rfl⟩

/-- An event settles nothing. -/
theorem Connection.onLine_event {line : Text} (h : (js.parse line).map kind = some .event) :
    c.onLine js line = (c, []) := by
  obtain ⟨m, hm, hk⟩ := Option.map_eq_some_iff.mp h
  simp only [Connection.onLine, hm, hk]

namespace World

/-! ## Every step keeps the order -/

/-- A request keeps the invariant: it is refused, or waits under a new id. -/
theorem Inv.request (h : Inv js w) {type : Text} {fields : List (Text × Json)}
    {timeoutMs : Option Nat}
    (hs : w.step js (.request type fields timeoutMs) = some w') : Inv js w' := by
  obtain hr | ⟨out, hr⟩ | ⟨hc, p, hp, hr⟩ := w.conn.request_cases js type fields timeoutMs
  · obtain rfl : w = w' := by simpa [step, hr, settle] using hs
    exact h
  · simp only [step, hr, settle, Option.some.injEq] at hs
    subst hs
    have hdue : ∀ l, l ++ (none : Option Nat).toList = l := List.append_nil
    refine ⟨h.handled, h.lines, h.coming, ?_, ?_, ?_, h.books.refused h.ids_lt rfl, h.own_append ?_⟩
    · exact (hdue w.unanswered).symm ▸ h.ordered
    · exact (hdue w.unanswered).symm ▸ fun id hid => Nat.lt_succ_of_lt (h.fresh id hid)
    · exact (hdue w.unanswered).symm ▸ h.pending
    · intro x hx n hn
      obtain rfl := List.mem_singleton.mp hx
      cases hn
  · simp only [step, hr, settle, Option.some.injEq] at hs
    subst hs
    have hdue : (w.sent.drop w.seen).filterMap (·.answers) ++ (w.unanswered ++ [w.conn.nextId]) =
        w.due ++ [w.conn.nextId] := by
      rw [due, List.append_assoc]
    have hids : (w.conn.pending ++ [p]).map (·.id) = w.conn.ids ++ [w.conn.nextId] := by
      rw [List.map_append, ← hp]
      rfl
    refine ⟨h.handled, h.lines, h.coming, ?_, ?_, ?_, ?_, h.own_append ?_⟩
    · show ((w.sent.drop w.seen).filterMap (·.answers) ++
        (w.unanswered ++ [w.conn.nextId])).Pairwise _
      rw [hdue, List.pairwise_append]
      refine ⟨h.ordered, List.pairwise_singleton _ _, fun a ha b hb => ?_⟩
      obtain rfl := List.mem_singleton.mp hb
      exact h.fresh a ha
    · show ∀ id ∈ (w.sent.drop w.seen).filterMap (·.answers) ++ (w.unanswered ++ [w.conn.nextId]), _
      rw [hdue]
      intro id hid
      obtain hid | hid := List.mem_append.mp hid
      · exact Nat.lt_succ_of_lt (h.fresh id hid)
      · obtain rfl := List.mem_singleton.mp hid
        exact Nat.lt_succ_self _
    · show ((w.conn.pending ++ [p]).map (·.id)).Sublist
        ((w.sent.drop w.seen).filterMap (·.answers) ++ (w.unanswered ++ [w.conn.nextId]))
      rw [hdue, hids]
      exact h.pending.append (List.Sublist.refl _)
    · exact (List.append_nil w.settled).symm ▸ h.books.request hc hp
    · intro x hx
      cases hx

/-- One promise is settled outside the lines, or none. -/
theorem Inv.settle_one (h : Inv js w) {id : Nat} {out : Outcome} {cause : Cause}
    (hid : id ∈ w.conn.ids) (hc : ∀ n, cause ≠ .line n) :
    Inv js (w.settle cause ({ w.conn with pending := w.conn.pending.filter (·.id ≠ id) },
      [(id, out)])) where
  handled := h.handled
  lines := h.lines
  coming := h.coming
  ordered := h.ordered
  fresh := h.fresh
  pending := by
    show Connection.ids { w.conn with pending := _ } |>.Sublist _
    rw [Books.ids_filter]
    exact List.filter_sublist.trans h.pending
  books := h.books.one (x := ⟨id, out, cause⟩) hid (h.ids_lt id hid)
  own := h.own_append fun x hx n => by
    obtain rfl := List.mem_singleton.mp hx
    exact hc n

theorem Inv.timeout (h : Inv js w) {id : Nat} (hs : w.step js (.timeout id) = some w') :
    Inv js w' := by
  obtain ⟨⟨c, settles⟩, hr, rfl⟩ := Option.map_eq_some_iff.mp hs
  obtain ⟨hid, out, rfl, rfl⟩ := Connection.timeout_some hr
  exact h.settle_one hid fun n hn => by cases hn

/-- A close settles what waits. -/
theorem Inv.close (h : Inv js w) (hs : w.step js .close = some w') : Inv js w' := by
  obtain rfl := Option.some.inj hs
  unfold Connection.finish
  split
  next =>
    have : w.settle .close (w.conn, []) = w := by simp [settle]
    exact this.symm ▸ h
  next =>
    refine ⟨h.handled, h.lines, h.coming, h.ordered, h.fresh, List.nil_sublist _, ?_,
      h.own_append ?_⟩
    · refine h.books.finish h.ids_nodup h.ids_lt ?_
      simp [Connection.ids]
    · intro x hx n hn
      obtain ⟨s, -, rfl⟩ := List.mem_map.mp hx
      cases hn

/-- The runtime writes a line. -/
theorem answers_append {sent more : List ServerLine} {n id : Nat}
    (h : sent[n]?.bind (·.answers) = some id) : (sent ++ more)[n]?.bind (·.answers) = some id := by
  obtain ⟨l, hl, ha⟩ := Option.bind_eq_some_iff.mp h
  obtain ⟨hlt, -⟩ := List.getElem?_eq_some_iff.mp hl
  rw [List.getElem?_append_left hlt, hl]
  exact ha

/-- A line of the server that answers the first unanswered request. -/
theorem Inv.send (h : Inv js w) {l : ServerLine} {rest : List Nat} (hl : Reads js l)
    (hrest : w.unanswered = l.answers.toList ++ rest) :
    Inv js { w.send l with unanswered := rest } := by
  have hdrop : (w.sent ++ [l]).drop w.seen = w.sent.drop w.seen ++ [l] :=
    List.drop_append_of_le_length h.handled
  have hdue : { w.send l with unanswered := rest : World }.due = w.due := by
    show ((w.sent ++ [l]).drop w.seen).filterMap (·.answers) ++ rest = _
    rw [hdrop, List.filterMap_append, due, hrest, List.append_assoc]
    rfl
  refine ⟨?_, ?_, ?_, hdue ▸ h.ordered, hdue ▸ h.fresh, hdue ▸ h.pending, h.books, ?_⟩
  · show w.seen ≤ (w.sent ++ [l]).length
    exact Nat.le_trans h.handled (by simp)
  · intro l' hl'
    exact (List.mem_append.mp hl').elim (h.lines l') fun hl' => List.mem_singleton.mp hl' ▸ hl
  · show w.conn.buf ++ (w.wire ++ (l.text ++ ['\n'])) = ((w.sent ++ [l]).drop w.seen).flatMap _
    rw [hdrop, List.flatMap_append, ← h.coming, ← List.append_assoc]
    simp
  · intro x hx n hn
    exact answers_append (h.own x hx n hn)

theorem Inv.data (h : Inv js w) {n : Nat} (hs : w.step js (.data n) = some w') : Inv js w' := by
  obtain rfl := Option.some.inj hs
  refine ⟨h.handled, h.lines, ?_, h.ordered, h.fresh, h.pending, h.books.buf _, h.own⟩
  show (w.conn.buf ++ w.wire.take n) ++ w.wire.drop n = _
  rw [List.append_assoc, List.take_append_drop]
  exact h.coming

/-- Without its first element a list that is in order has the rest. -/
theorem sublist_filter {ids rest : List Nat} {id : Nat} (h : ids.Sublist (id :: rest)) :
    (ids.filter (· ≠ id)).Sublist rest := by
  obtain h | ⟨r, rfl, hr⟩ := List.sublist_cons_iff.mp h
  · exact List.filter_sublist.trans h
  · rw [List.filter_cons_of_neg (by simp)]
    exact List.filter_sublist.trans hr

theorem head_of_sublist {ids rest : List Nat} {id : Nat} (h : ids.Sublist (id :: rest))
    (hlater : id ∉ rest) (hin : id ∈ ids) : ids.head? = some id := by
  obtain h | ⟨r, rfl, -⟩ := List.sublist_cons_iff.mp h
  · exact absurd (h.subset hin) hlater
  · rfl

/-- What is left to handle after the next line. -/
def rest (w : World) : List Nat := (w.sent.drop (w.seen + 1)).filterMap (·.answers) ++ w.unanswered

/-- The next line of the buffer is the next line that was sent. -/
theorem Inv.next (h : Inv js w) {line more : Text}
    (hcut : Text.cutLine w.conn.buf = some (line, more)) :
    ∃ m, w.sent[w.seen]? = some m ∧ line = m.text ∧ w.due = m.answers.toList ++ w.rest ∧
      more ++ w.wire = (w.sent.drop (w.seen + 1)).flatMap fun l => l.text ++ ['\n'] := by
  have hcoming := h.coming
  rw [Text.cutLine_eq hcut, List.append_assoc, List.cons_append] at hcoming
  cases hdrop : w.sent.drop w.seen with
  | nil =>
    rw [hdrop] at hcoming
    exact absurd hcoming (by simp)
  | cons m ms =>
    have hm : w.sent[w.seen]? = some m := by
      rw [← List.head?_drop, hdrop]
      rfl
    have hms : w.sent.drop (w.seen + 1) = ms := by
      rw [← List.tail_drop, hdrop]
      rfl
    have hclean : '\n' ∉ m.text := by
      have hread : decide _ = true := h.lines m (List.mem_of_getElem? hm)
      exact (of_decide_eq_true hread).1
    rw [hdrop, List.flatMap_cons, List.append_assoc, List.singleton_append] at hcoming
    obtain ⟨hline, hafter⟩ := Lib.line_append (more ++ w.wire) (Text.cutLine_clean hcut)
    rw [hcoming, (Lib.line_append _ hclean).1] at hline
    rw [hcoming, (Lib.line_append _ hclean).2] at hafter
    refine ⟨m, hm, (List.append_cancel_right hline).symm, ?_, hms ▸ hafter.symm⟩
    rw [due, rest, hms, hdrop, ← List.append_assoc]
    congr 1
    cases ha : m.answers <;> simp [ha]

/-- The line is handled; `r` is what it does to the connection. -/
theorem Inv.handle (h : Inv js w) {m : ServerLine} {more : Text} {c : Connection}
    {settles : Settles} (hm : w.sent[w.seen]? = some m) (hdue : w.due = m.answers.toList ++ w.rest)
    (hmore : more ++ w.wire = (w.sent.drop (w.seen + 1)).flatMap fun l => l.text ++ ['\n'])
    (hbuf : c.buf = more) (hnext : c.nextId = w.conn.nextId) (hids : c.ids.Sublist w.rest)
    (hbooks : Books c (w.settle (.line w.seen) (c, settles)).settled)
    (hown : ∀ s ∈ settles, m.answers = some s.1) :
    Inv js { w.settle (.line w.seen) (c, settles) with seen := w.seen + 1 } where
  handled := by
    obtain ⟨hlt, -⟩ := List.getElem?_eq_some_iff.mp hm
    exact hlt
  lines := h.lines
  coming := by
    show c.buf ++ w.wire = _
    rw [hbuf]
    exact hmore
  ordered := (List.pairwise_append.mp (hdue ▸ h.ordered)).2.1
  fresh id hid := by
    show id < c.nextId
    rw [hnext]
    exact h.fresh id (hdue ▸ List.mem_append_right _ hid)
  pending := hids
  books := hbooks
  own x hx n hn := by
    obtain hx | hx := List.mem_append.mp hx
    · exact h.own x hx n hn
    · obtain ⟨s, hs, rfl⟩ := List.mem_map.mp hx
      obtain rfl : w.seen = n := Cause.line.inj hn
      show w.sent[w.seen]?.bind _ = some s.1
      rw [hm]
      exact hown s hs

/-- A line in time settles its own request, or none. -/
theorem Inv.line (h : Inv js w) (ht : w.InTime .line) (hs : w.step js .line = some w') :
    Inv js w' := by
  obtain ⟨⟨c, settles⟩, hr, rfl⟩ := Option.map_eq_some_iff.mp hs
  obtain ⟨⟨line, more⟩, hcut, hr⟩ := Option.map_eq_some_iff.mp hr
  obtain ⟨m, hm, rfl, hdue, hmore⟩ := h.next hcut
  have hread : decide _ = true := h.lines m (List.mem_of_getElem? hm)
  obtain ⟨-, htrim, hkind⟩ := of_decide_eq_true hread
  simp only [if_neg htrim] at hr
  have hbooks := h.books.buf more
  -- nothing is settled, and the request of the line is not pending
  have quiet : w.conn.ids.Sublist w.rest → Inv js { w.settle (.line w.seen)
      ({ w.conn with buf := more }, []) with seen := w.seen + 1 } := by
    intro hids
    refine h.handle hm hdue hmore rfl rfl hids ?_ fun s hs => by cases hs
    show Books _ (w.settled ++ [])
    rw [List.append_nil]
    exact hbooks
  cases ha : m.answers with
  | none =>
    rw [ha] at hkind hdue
    rw [Connection.onLine_event hkind] at hr
    obtain ⟨rfl, rfl⟩ := Prod.mk.inj hr
    have hsub := h.pending
    rw [hdue] at hsub
    exact quiet hsub
  | some id =>
    have hfirst : w.due = id :: w.rest := by rw [hdue, ha]; rfl
    have hsub : w.conn.ids.Sublist (id :: w.rest) := hfirst ▸ h.pending
    have hlater : id ∉ w.rest := fun hin =>
      Nat.lt_irrefl id ((List.pairwise_cons.mp (hfirst ▸ h.ordered)).1 id hin)
    -- the request of the line is settled
    have own : ∀ out, id ∈ w.conn.ids → Inv js { w.settle (.line w.seen) ({ w.conn with
        buf := more, pending := w.conn.pending.filter (·.id ≠ id) }, [(id, out)]) with
        seen := w.seen + 1 } := by
      intro out hin
      refine h.handle hm hdue hmore rfl rfl ?_
        (hbooks.one (x := ⟨id, out, _⟩) hin (h.ids_lt id hin))
        fun s hs => List.mem_singleton.mp hs ▸ ha
      show Connection.ids { w.conn with pending := _ } |>.Sublist _
      rw [Books.ids_filter]
      exact sublist_filter hsub
    rw [ha] at hkind
    cases hn : m.named with
    | true =>
      rw [hn] at hkind
      obtain ⟨hout, heq⟩ | ⟨hin, out, heq⟩ := Connection.onLine_named hkind
      · rw [heq] at hr
        obtain ⟨rfl, rfl⟩ := Prod.mk.inj hr
        exact quiet ((List.sublist_cons_iff.mp hsub).resolve_right
          fun ⟨r, hr, _⟩ => hout (hr ▸ List.mem_cons_self))
      · rw [heq] at hr
        obtain ⟨rfl, rfl⟩ := Prod.mk.inj hr
        exact own out hin
    | false =>
      rw [hn] at hkind
      obtain ⟨hnil, heq⟩ | ⟨key, hkey, out, heq⟩ := Connection.onLine_unnamed hkind
      · rw [heq] at hr
        obtain ⟨rfl, rfl⟩ := Prod.mk.inj hr
        have hids : w.conn.ids = [] := congrArg (List.map _) hnil
        exact quiet (hids ▸ List.nil_sublist _)
      · rw [heq] at hr
        obtain ⟨rfl, rfl⟩ := Prod.mk.inj hr
        -- the request is still pending, so it is the oldest
        have hin : id ∈ w.conn.ids := by
          refine (ht m id hm ha hn).resolve_right fun hnil => ?_
          have hids : w.conn.ids = [] := congrArg (List.map _) hnil
          have hkey : w.conn.ids.head? = some key := hkey
          rw [hids] at hkey
          cases hkey
        have hhead := head_of_sublist hsub hlater hin
        obtain rfl : key = id := Option.some.inj (hkey.symm.trans hhead)
        exact own out hin

/-- Every event in time keeps the invariant. -/
theorem Inv.step (h : Inv js w) (ht : w.InTime e) (hs : w.step js e = some w') : Inv js w' := by
  cases e with
  | request type fields timeoutMs => exact h.request hs
  | timeout id => exact h.timeout hs
  | answer text parsed =>
    simp only [World.step] at hs
    split at hs
    · cases hs
    next id rest hrest =>
      obtain ⟨hread, hs⟩ := Option.ite_none_right_eq_some.mp hs
      obtain rfl := Option.some.inj hs
      exact h.send hread hrest
  | event text =>
    obtain ⟨hread, hs⟩ := Option.ite_none_right_eq_some.mp hs
    obtain rfl := Option.some.inj hs
    exact h.send hread rfl
  | data n => exact h.data hs
  | line => exact h.line ht hs
  | close => exact h.close hs

end World

/-! ## A request the runtime cannot parse -/

/-- Arrays in each other, deeper than the runtime parses. -/
def deep : Nat → Json
  | 0 => .array []
  | n + 1 => .array [deep n]

def badRequest : Text :=
  "\x7b\"error\":\x7b\"code\":\"E_BAD_REQUEST\",\"message\":\"invalid JSON: recursion limit exceeded\"\x7d,\"ok\":false\x7d".toList

/-- `JSON` on the lines of the two requests and on the reply. -/
def sample : JsonText where
  stringify v :=
    if v.get "x".toList |>.isSome then
      "\x7b\"x\":".toList ++ List.replicate 128 '[' ++ List.replicate 128 ']' ++
        ",\"type\":\"status\",\"id\":1\x7d".toList
    else "\x7b\"type\":\"status\",\"id\":2\x7d".toList
  parse t :=
    if t = badRequest then
      some (.object [("error".toList, .object [("code".toList, .string "E_BAD_REQUEST".toList),
        ("message".toList, .string "invalid JSON: recursion limit exceeded".toList)]),
        ("ok".toList, .bool false)])
    else none

/-- **Replies reach their own request** in every run in which no reply without an id is handled
when its own request has timed out and another one is pending. -/
theorem replies_settle_own (js : JsonText) {w : World} {es : List Event}
    (hm : (runs js).Meets World.InTime {} es) (hr : (runs js).run {} es = some w) : w.Faithful :=
  ((runs js).run_invariant_of (P := World.Inv js) (fun _ _ _ ht h hs => h.step ht hs) hm
    World.init_inv hr).faithful

/-- The runtime cannot parse the request and answers in time. -/
def promptReply : List Event :=
  [.request "status".toList [("x".toList, deep 127)] (some 5), .answer badRequest false,
    .data 200, .line]

/-- Two requests are answered in time, in order. -/
theorem replies_settle_own_prompt :
    ∃ w, (runs sample).run {} promptReply = some w ∧ w.Faithful := by
  have hsome : ((runs sample).run {} promptReply).isSome = true := by decide +kernel
  obtain ⟨w, hw⟩ := Option.isSome_iff_exists.mp hsome
  refine ⟨w, hw, replies_settle_own sample ?_ hw⟩
  refine ⟨trivial, fun t₁ h₁ => ⟨trivial, fun t₂ h₂ =>
    ⟨trivial, fun t₃ h₃ => ⟨?_, fun _ _ => trivial⟩⟩⟩⟩
  have hrun : (runs sample).run {} (promptReply.take 3) = some t₃ :=
    (runs sample).run_cons_iff.mpr ⟨t₁, h₁, (runs sample).run_cons_iff.mpr ⟨t₂, h₂,
      (runs sample).run_cons_iff.mpr ⟨t₃, h₃, rfl⟩⟩⟩
  have hstate : (((runs sample).run {} (promptReply.take 3)).map fun w => (w.conn.ids,
      w.sent.map (·.answers), w.seen)) = some ([1], [some 1], 0) := by decide +kernel
  rw [hrun] at hstate
  obtain ⟨hids, hstate⟩ := Prod.mk.inj (Option.some.inj hstate)
  obtain ⟨hsent, hseen⟩ := Prod.mk.inj hstate
  intro l id hl ha _
  have hl : l ∈ t₃.sent := List.mem_of_getElem? hl
  have hone : some id ∈ [some 1] := hsent ▸ ha ▸ List.mem_map_of_mem hl
  obtain rfl : id = 1 := Option.some.inj (List.mem_singleton.mp hone)
  exact .inl (hids ▸ List.mem_cons_self)

/-- The first request times out, and its reply comes while the second waits. -/
def lateReply : List Event :=
  [.request "status".toList [("x".toList, deep 127)] (some 5), .request "status".toList [] none,
    .timeout 1, .answer badRequest false, .data 200, .line]

/-- The reply to the first request settles the second. -/
theorem late_reply_taken : ¬ ∀ (js : JsonText) (es : List Event) (w : World),
    (runs js).run {} es = some w → w.Faithful := by
  intro hall
  have hsettled : (((runs sample).run {} lateReply).map fun w =>
    (w.settled.map fun x => (x.id, x.cause),
      w.sent.map (·.answers))) = some ([(1, .timeout), (2, .line 0)], [some 1]) := by decide +kernel
  obtain ⟨w, hw, heq⟩ := Option.map_eq_some_iff.mp hsettled
  obtain ⟨hcauses, hsent⟩ := Prod.mk.inj heq
  obtain ⟨x, hx, hxc⟩ := List.mem_map.mp (hcauses ▸ List.mem_cons_of_mem _ List.mem_cons_self)
  obtain ⟨hid, hcause⟩ := Prod.mk.inj hxc
  have hown := (hall sample lateReply w hw).own x hx 0 hcause
  have hanswers : w.sent[0]?.bind (·.answers) = some 1 := by
    cases hs : w.sent with
    | nil => rw [hs] at hsent; cases hsent
    | cons l ls => rw [hs] at hsent; exact (List.cons.inj hsent).1
  rw [hanswers, hid] at hown
  cases hown

end Sonara.TsClient
