import Mathlib.Data.List.Basic
import Mathlib.Data.Nat.Basic
import Sonara.Client.Deliver

/-!
# What a delivery says of the batch

On each connection the runtime applies an initial run of the batch, in order, each message
once (`ConnInv`): `hello` comes first and is not repeated, and a runtime that has begun to
exit takes nothing more (`Served`). `deliver` makes a second connection only when the first
one broke off or its `hello` was refused (`Tried`), and a runtime that refused `hello`
applies nothing from that connection (`Conn.Barred`).

So a message can be applied twice, and a batch that was dropped can be applied, only when
`send_on` gave up on a runtime that still has the lines (`delivery_doubles`).
-/

namespace Sonara.Client

variable {exe : Bool} {msgs : List Text} {n : Nat} {x y : Conn} {w w' : World} {e : Event}

/-- Whether the line was dispatched. -/
def Reply.carried : Reply → Bool
  | .ok | .failed => true
  | .busy | .refused => false

/-- Nothing was applied on this connection, and nothing will be. -/
structure Conn.Barred (x : Conn) : Prop where
  nothing : x.applied = []
  unauthed : x.authed = false
  past : x.peer = .other ∨ 0 < x.handled ∨ x.closed = true

/-- `deliver` may send the batch again after it. -/
def Conn.Spent (x : Conn) : Prop := x.broken = true ∨ x.Barred

/-- What holds of every connection, for a batch of `n` messages. -/
structure ConnInv (n : Nat) (x : Conn) : Prop where
  handled_le : x.handled ≤ x.written
  written_le : x.written ≤ n + 1
  got_le : x.got ≤ x.replies.length
  range : x.applied = List.range x.applied.length
  few : x.authed = true → x.applied.length + 1 ≤ x.handled
  unauthed : x.authed = false → x.applied = []
  other : x.peer = .other → x.authed = false
  /-- The dispatched lines are `hello` and the applied messages. -/
  carried : x.peer ≠ .other →
    (x.replies.filter Reply.carried).length = if x.authed then x.applied.length + 1 else 0
  hello : x.peer ≠ .other → ∀ r, x.replies.head? = some r →
    r = .ok ∧ x.authed = true ∨ r ≠ .ok ∧ x.Barred
  early : x.peer ≠ .other → x.handled = 0 → x.closed = false → x.replies = []

/-- What holds of a connection and the process at its other end. -/
structure Served (procs : Nat → Option Process) (x : Conn) : Prop where
  born : ∀ p, x.peer = .runtime p → procs p ≠ none ∧ procs p ≠ some .starting
  /-- Until the runtime begins to exit it dispatches every line. -/
  next : ∀ p port token, x.peer = .runtime p → procs p = some (.live port token false) →
    x.authed = true → x.closed = false → x.applied.length + 1 = x.handled

/-- The connections before number `c`, at most one, are spent. -/
structure Tried (conns : List Conn) (c : Nat) : Prop where
  le : c ≤ 1
  spent : ∀ (i : Nat) x, i < c → conns[i]? = some x → x.Spent

/-- The first send uses connection 0. -/
def Attempt.Fits (c : Nat) : Attempt → Prop
  | .first _ => c = 0
  | .again _ _ => True

/-- What `deliver` has done by each point. -/
def PhaseInv (n : Nat) (conns : List Conn) : Phase → Prop
  | .reading | .connecting _ (.first _) => conns.length = 0
  | .connecting _ (.again _ _) | .deciding _ | .polling _ _ | .looking _ _ _ | .done .dropped =>
    Tried conns conns.length
  | .sending c t => conns.length = c + 1 ∧ Tried conns c ∧ t.Fits c ∧
    ∀ x, conns[c]? = some x → x.written ≤ n
  | .awaiting c t => conns.length = c + 1 ∧ Tried conns c ∧ t.Fits c ∧
    ∀ x, conns[c]? = some x → x.written = n + 1
  | .done .sent => conns.length = 1 ∧
    ∀ x, conns[0]? = some x → x.written = n + 1 ∧ x.hello_ok = true
  | .done .started => ∃ c, conns.length = c + 1 ∧ Tried conns c

structure Inv (n : Nat) (w : World) : Prop where
  conn : ∀ (i : Nat) x, w.conns[i]? = some x → ConnInv n x ∧ Served w.procs x
  phase : PhaseInv n w.conns w.phase

theorem Started.inv (h : Started w) : Inv n w where
  conn i x hx := by
    rw [h.unsent] at hx
    cases hx
  phase := by
    rw [h.reading, h.unsent]
    rfl

/-! ## A connection -/

/-- What the other end of a connection changes about it. -/
structure Later (x y : Conn) : Prop where
  written : y.written = x.written
  got : y.got = x.got
  broken : y.broken = x.broken
  told : x.replies <+: y.replies
  barred : x.Barred → y.Barred

theorem Later.spent (h : Later x y) (hs : x.Spent) : y.Spent :=
  hs.imp (fun hb => h.broken.trans hb) h.barred

theorem Later.hello_ok (h : Later x y) (hg : x.got ≤ x.replies.length) :
    y.hello_ok = x.hello_ok := by
  obtain ⟨more, hmore⟩ := h.told
  unfold Conn.hello_ok
  rw [h.got, ← hmore, List.take_append_of_le_length hg]

/-- A new connection. -/
theorem ConnInv.new (n : Nat) (peer : Peer) (token : Text) : ConnInv n (.new peer token) where
  handled_le := Nat.le_refl _
  written_le := Nat.zero_le _
  got_le := Nat.le_refl _
  range := rfl
  few ha := by cases ha
  unauthed _ := rfl
  other _ := rfl
  carried _ := rfl
  hello _ r hr := by cases hr
  early _ _ _ := rfl

/-- A runtime that let `hello` pass has answered. -/
theorem ConnInv.answered (h : ConnInv n x) (hp : x.peer ≠ .other) (ha : x.authed = true) :
    x.replies ≠ [] := by
  intro hnil
  have := h.carried hp
  rw [hnil, if_pos ha] at this
  simp at this

/-- The first reply stays the first. -/
theorem head_append {l : List Reply} (hl : l ≠ []) (r : Reply) : (l ++ [r]).head? = l.head? := by
  cases l with
  | nil => exact absurd rfl hl
  | cons a l => rfl

/-- A line is answered without a dispatch. -/
theorem ConnInv.refuse (h : ConnInv n x) (hp : x.peer ≠ .other) (hw : x.handled < x.written)
    {r : Reply} (hr : r.carried = false) (close : Bool) :
    ConnInv n ({ x with handled := x.handled + 1 }.reply r close) ∧
      Later x ({ x with handled := x.handled + 1 }.reply r close) := by
  have hbar : x.Barred → ({ x with handled := x.handled + 1 }.reply r close).Barred := fun hb =>
    ⟨hb.nothing, hb.unauthed, .inr (.inl (Nat.succ_pos _))⟩
  refine ⟨⟨hw, h.written_le, ?_, h.range, fun ha => Nat.le_succ_of_le (h.few ha), h.unauthed,
    h.other, fun _ => ?_, fun _ q hq => ?_, fun _ h0 => absurd h0 (Nat.succ_ne_zero _)⟩,
    ⟨rfl, rfl, rfl, ⟨[r], rfl⟩, hbar⟩⟩
  · have hgot := h.got_le
    simp only [Conn.reply, List.length_append]
    omega
  · show ((x.replies ++ [r]).filter Reply.carried).length =
      if x.authed then x.applied.length + 1 else 0
    have hnone : [r].filter Reply.carried = [] := by simp [hr]
    rw [List.filter_append, hnone, List.append_nil]
    exact h.carried hp
  · have hok : r ≠ .ok := by
      rintro rfl
      cases hr
    by_cases hnil : x.replies = []
    · have hq : (x.replies ++ [r]).head? = some q := hq
      rw [hnil] at hq
      obtain rfl : r = q := Option.some.inj hq
      have hauth : x.authed = false := by
        cases hauth : x.authed with
        | false => rfl
        | true => exact absurd hnil (h.answered hp hauth)
      exact .inr ⟨hok, h.unauthed hauth, hauth, .inr (.inl (Nat.succ_pos _))⟩
    · have hq : (x.replies ++ [r]).head? = some q := hq
      rw [head_append hnil] at hq
      exact (h.hello hp q hq).imp_right (And.imp_right hbar)

/-- `hello` passes. -/
theorem ConnInv.welcome (h : ConnInv n x) (hp : x.peer ≠ .other) (hc : x.closed = false)
    (hw : x.handled < x.written) (h0 : x.handled = 0) :
    ConnInv n ({ x with handled := 1, authed := true }.reply .ok false) ∧
      Later x ({ x with handled := 1, authed := true }.reply .ok false) := by
  have hnil := h.early hp h0 hc
  have hauth : x.authed = false := by
    cases hauth : x.authed with
    | false => rfl
    | true => exact absurd hnil (h.answered hp hauth)
  have happ := h.unauthed hauth
  refine ⟨⟨?_, h.written_le, ?_, h.range, fun _ => ?_, fun ha => ?_, fun ho => absurd ho hp,
    fun _ => ?_, fun _ q hq => ?_, fun _ hz => absurd hz Nat.one_ne_zero⟩,
    ⟨rfl, rfl, rfl, ⟨[.ok], rfl⟩, fun hb => ?_⟩⟩
  · exact Nat.lt_of_le_of_lt (Nat.zero_le _) hw
  · exact Nat.le_trans h.got_le (by simp [Conn.reply])
  · simp [Conn.reply, happ]
  · cases ha
  · simp only [Conn.reply, hnil, happ]
    rfl
  · have hq : (x.replies ++ [Reply.ok]).head? = some q := hq
    rw [hnil] at hq
    exact .inl ⟨(Option.some.inj hq).symm, rfl⟩
  · -- a barred connection is past its `hello`
    rcases hb.past with ho | hlt | hcl
    · exact absurd ho hp
    · omega
    · rw [hc] at hcl
      cases hcl

/-- A message is dispatched. -/
theorem ConnInv.dispatch (h : ConnInv n x) (hp : x.peer ≠ .other) (hw : x.handled < x.written)
    (ha : x.authed = true) {i : Nat} (hi : x.handled = i + 1)
    (hnext : x.applied.length + 1 = x.handled) {r : Reply} (hr : r.carried = true) :
    ConnInv n ({ x with handled := i + 2, applied := x.applied ++ [i] }.reply r false) ∧
      Later x ({ x with handled := i + 2, applied := x.applied ++ [i] }.reply r false) := by
  have hlen : x.applied.length = i := by omega
  refine ⟨⟨?_, h.written_le, ?_, ?_, fun _ => ?_, fun hf => ?_, fun ho => absurd ho hp,
    fun _ => ?_, fun _ q hq => ?_, fun _ hz => absurd hz (Nat.succ_ne_zero _)⟩,
    ⟨rfl, rfl, rfl, ⟨[r], rfl⟩, fun hb => ?_⟩⟩
  · show i + 2 ≤ x.written
    omega
  · exact Nat.le_trans h.got_le (by simp [Conn.reply])
  · show x.applied ++ [i] = List.range (x.applied ++ [i]).length
    rw [List.length_append, List.length_singleton, List.range_succ, ← h.range, hlen]
  · simp [Conn.reply, hlen]
  · have hf : x.authed = false := hf
    rw [ha] at hf
    cases hf
  · have hcar := h.carried hp
    rw [if_pos ha] at hcar
    simp [Conn.reply, hr, hcar, ha]
  · have hq : (x.replies ++ [r]).head? = some q := hq
    rw [head_append (h.answered hp ha)] at hq
    rcases h.hello hp q hq with hok | ⟨-, hb⟩
    · exact .inl hok
    · have := hb.unauthed
      rw [ha] at this
      cases this
  · have := hb.unauthed
    rw [ha] at this
    cases this

/-- A runtime that saw no `hello` closes the connection. -/
theorem ConnInv.shut (h : ConnInv n x) (ha : x.authed = false) :
    ConnInv n (x.reply .refused true) ∧ Later x (x.reply .refused true) := by
  have hbar : (x.reply .refused true).Barred := ⟨h.unauthed ha, ha, .inr (.inr rfl)⟩
  refine ⟨⟨h.handled_le, h.written_le, ?_, h.range, h.few, h.unauthed, h.other, fun hp => ?_,
    fun hp q hq => ?_, fun _ _ hf => by cases hf⟩,
    ⟨rfl, rfl, rfl, ⟨[.refused], rfl⟩, fun _ => hbar⟩⟩
  · exact Nat.le_trans h.got_le (by simp [Conn.reply])
  · show ((x.replies ++ [Reply.refused]).filter Reply.carried).length =
      if x.authed then x.applied.length + 1 else 0
    rw [List.filter_append, show [Reply.refused].filter Reply.carried = [] from rfl,
      List.append_nil]
    exact h.carried hp
  · have hq : (x.replies ++ [Reply.refused]).head? = some q := hq
    by_cases hnil : x.replies = []
    · rw [hnil] at hq
      obtain rfl := Option.some.inj hq
      exact .inr ⟨by simp, hbar⟩
    · rw [head_append hnil] at hq
      rcases h.hello hp q hq with ⟨-, hauth⟩ | ⟨hne, -⟩
      · rw [ha] at hauth
        cases hauth
      · exact .inr ⟨hne, hbar⟩

/-- **The runtime handles a line.** -/
theorem ConnInv.handle (h : ConnInv n x) (hp : x.peer ≠ .other) (hc : x.closed = false)
    (hw : x.handled < x.written) (token : Text) {exiting : Bool} (ok : Bool)
    (hnext : exiting = false → x.authed = true → x.applied.length + 1 = x.handled) :
    ConnInv n (x.handle msgs token exiting ok) ∧ Later x (x.handle msgs token exiting ok) ∧
      (x.handle msgs token exiting ok).peer = x.peer ∧
      (exiting = false → (x.handle msgs token exiting ok).authed = true →
        (x.handle msgs token exiting ok).closed = false →
        (x.handle msgs token exiting ok).applied.length + 1 =
          (x.handle msgs token exiting ok).handled) := by
  unfold Conn.handle
  split
  next h0 =>
    have hrefuse := fun close => h.refuse hp hw (r := .refused) rfl close
    rw [h0] at hrefuse
    have hauth : x.authed = false := by
      cases hauth : x.authed with
      | false => rfl
      | true => exact absurd (h.early hp h0 hc) (h.answered hp hauth)
    split
    · refine ⟨(hrefuse true).1, (hrefuse true).2, rfl, fun _ _ hopen => ?_⟩
      cases hopen
    · split
      · refine ⟨(h.welcome hp hc hw h0).1, (h.welcome hp hc hw h0).2, rfl, fun _ _ _ => ?_⟩
        simp [Conn.reply, h.unauthed hauth]
      · refine ⟨(hrefuse false).1, (hrefuse false).2, rfl, fun _ hok _ => ?_⟩
        have hok : x.authed = true := hok
        rw [hauth] at hok
        cases hok
  next i hi =>
    have hrefuse := fun close => h.refuse hp hw (r := .refused) rfl close
    have hbusy := fun close => h.refuse hp hw (r := .busy) rfl close
    rw [hi] at hrefuse hbusy
    split
    · refine ⟨(hrefuse true).1, (hrefuse true).2, rfl, fun _ _ hopen => ?_⟩
      cases hopen
    · split
      · refine ⟨(hrefuse true).1, (hrefuse true).2, rfl, fun _ _ hopen => ?_⟩
        cases hopen
      next hauth =>
        have hauth : x.authed = true := by simpa using hauth
        split
        next hex =>
          refine ⟨(hbusy false).1, (hbusy false).2, rfl, fun hno _ _ => ?_⟩
          rw [hex] at hno
          cases hno
        next hex =>
          have hn := hnext (by simpa using hex) hauth
          have hr : (if ok then Reply.ok else Reply.failed).carried = true := by
            cases ok <;> rfl
          refine ⟨(h.dispatch hp hw hauth hi hn hr).1, (h.dispatch hp hw hauth hi hn hr).2, rfl,
            fun _ _ _ => ?_⟩
          simp only [Conn.reply, List.length_append, List.length_singleton]
          omega

/-- When every reply was read and each line was dispatched, the whole batch was applied. -/
theorem ConnInv.whole (h : ConnInv n x) (hp : x.peer ≠ .other) (hgot : n + 1 ≤ x.got)
    (hall : ∀ r ∈ x.replies, r.carried = true) : x.applied = List.range n := by
  have hcar := h.carried hp
  rw [List.filter_eq_self.mpr hall] at hcar
  have hle := h.got_le
  split at hcar
  next ha =>
    have hfew := h.few ha
    have hhandled := h.handled_le
    have hwritten := h.written_le
    rw [h.range, show x.applied.length = n by omega]
  next => omega

theorem ConnInv.applied_le (h : ConnInv n x) : x.applied.length ≤ n := by
  cases ha : x.authed with
  | false =>
    rw [h.unauthed ha]
    exact Nat.zero_le _
  | true =>
    have hfew := h.few ha
    have hhandled := h.handled_le
    have hwritten := h.written_le
    omega

/-- A send that did not end with an ok reply to `hello` leaves the connection spent. -/
theorem ConnInv.spent (h : ConnInv n x) {err : Bool} (hok : ¬(!err && x.hello_ok) = true)
    (hy : { x with broken := err || x.got == 0 } = y) : y.Spent := by
  subst hy
  cases herr : err with
  | true => exact .inl rfl
  | false =>
    cases hg : x.got with
    | zero => exact .inl (by simp)
    | succ k =>
      -- a reply to `hello` was read, and it was not ok
      refine .inr ?_
      by_cases hp : x.peer = .other
      · exact ⟨h.unauthed (h.other hp), h.other hp, .inl hp⟩
      · have hne : x.hello_ok ≠ true := by simpa [herr] using hok
        cases hr : x.replies.head? with
        | none =>
          have := h.got_le
          rw [List.head?_eq_none_iff.mp hr, hg] at this
          exact absurd this (Nat.not_succ_le_zero k)
        | some r =>
          rcases h.hello hp r hr with ⟨rfl, -⟩ | ⟨-, hb⟩
          · refine absurd ?_ hne
            simp [Conn.hello_ok, hg, List.head?_take, hr]
          · exact ⟨hb.nothing, hb.unauthed, hb.past⟩

/-! ## The processes -/

/-- A process of a connection ends or begins to exit; others may start. -/
theorem Served.setProc (h : Served w.procs x) {pid : Nat} {P : Process}
    (hP : (w.procs pid = none ∨ w.procs pid = some .starting) ∨
      (∃ port token, P = .live port token true) ∨ P = .dead) :
    Served (w.setProc pid P).procs x := by
  have hother : ∀ p, x.peer = .runtime p → p = pid →
      (∃ port token, P = .live port token true) ∨ P = .dead := by
    rintro p hp rfl
    rcases hP with (hnone | hstart) | hP
    · exact absurd hnone (h.born p hp).1
    · exact absurd hstart (h.born p hp).2
    · exact hP
  refine ⟨fun p hp => ?_, fun p port token hp hlive => ?_⟩
  · by_cases heq : p = pid
    · show (if p = pid then some P else w.procs p) ≠ none ∧
        (if p = pid then some P else w.procs p) ≠ some .starting
      rw [if_pos heq]
      rcases hother p hp heq with ⟨port, token, rfl⟩ | rfl <;> simp
    · show (if p = pid then some P else w.procs p) ≠ none ∧
        (if p = pid then some P else w.procs p) ≠ some .starting
      rw [if_neg heq]
      exact h.born p hp
  · have hlive : (if p = pid then some P else w.procs p) = some (.live port token false) := hlive
    by_cases heq : p = pid
    · rw [if_pos heq] at hlive
      rcases hother p hp heq with ⟨port, token, rfl⟩ | rfl <;> simp at hlive
    · rw [if_neg heq] at hlive
      exact h.next p port token hp hlive

/-! ## The world -/

/-- A step of the processes, or of the home. -/
theorem Inv.procs (h : Inv n w) (hconns : w'.conns = w.conns) (hphase : w'.phase = w.phase)
    (hserved : ∀ x, Served w.procs x → Served w'.procs x) : Inv n w' where
  conn i x hx := by
    rw [hconns] at hx
    exact ⟨(h.conn i x hx).1, hserved x (h.conn i x hx).2⟩
  phase := by
    rw [hconns, hphase]
    exact h.phase

/-- `deliver` goes on without a change to the connections. -/
theorem Inv.goto (h : Inv n w) {p : Phase} (hp : PhaseInv n w.conns p) : Inv n (w.goto p) :=
  ⟨h.conn, hp⟩

theorem getElem?_set_some {l : List Conn} {c i : Nat} {a b x : Conn} (hc : l[c]? = some a)
    (hx : (l.set c b)[i]? = some x) : i = c ∧ x = b ∨ i ≠ c ∧ l[i]? = some x := by
  rw [List.getElem?_set] at hx
  split at hx
  next heq =>
    subst heq
    have hlt : c < l.length := (List.getElem?_eq_some_iff.mp hc).1
    rw [if_pos hlt] at hx
    exact .inl ⟨rfl, (Option.some.inj hx).symm⟩
  next hne => exact .inr ⟨fun heq => hne heq.symm, hx⟩

theorem Tried.set {conns : List Conn} {c k : Nat} (h : Tried conns c) (hx : conns[k]? = some x)
    (hk : k < c → x.Spent → y.Spent) : Tried (conns.set k y) c where
  le := h.le
  spent i z hi hz := by
    rcases getElem?_set_some hx hz with ⟨rfl, rfl⟩ | ⟨-, hz⟩
    · exact hk hi (h.spent i x hi hx)
    · exact h.spent i z hi hz

/-- What the other end does leaves `deliver` where it is. -/
theorem PhaseInv.later {conns : List Conn} {p : Phase} {k : Nat} (h : PhaseInv n conns p)
    (hx : conns[k]? = some x) (hl : Later x y) (hg : x.got ≤ x.replies.length) :
    PhaseInv n (conns.set k y) p := by
  have htried : ∀ c, Tried conns c → Tried (conns.set k y) c :=
    fun c ht => ht.set hx fun _ => hl.spent
  have hwritten : ∀ (c : Nat) (P : Nat → Prop),
      (∀ z : Conn, conns[c]? = some z → P z.written) →
      ∀ z : Conn, (conns.set k y)[c]? = some z → P z.written := by
    intro c P hP z hz
    rcases getElem?_set_some hx hz with ⟨rfl, rfl⟩ | ⟨-, hz⟩
    · rw [hl.written]
      exact hP x hx
    · exact hP z hz
  cases p with
  | reading => exact (List.length_set ..).trans h
  | connecting rt t =>
    cases t with
    | first => exact (List.length_set ..).trans h
    | again =>
      show Tried _ _
      rw [List.length_set]
      exact htried _ h
  | deciding | polling | looking =>
    show Tried _ _
    rw [List.length_set]
    exact htried _ h
  | sending c t =>
    exact ⟨(List.length_set ..).trans h.1, htried c h.2.1, h.2.2.1, hwritten c (· ≤ n) h.2.2.2⟩
  | awaiting c t =>
    exact ⟨(List.length_set ..).trans h.1, htried c h.2.1, h.2.2.1, hwritten c (· = n + 1) h.2.2.2⟩
  | done d =>
    cases d with
    | dropped =>
      show Tried _ _
      rw [List.length_set]
      exact htried _ h
    | started =>
      obtain ⟨c, hlen, ht⟩ := h
      exact ⟨c, (List.length_set ..).trans hlen, htried c ht⟩
    | sent =>
      refine ⟨(List.length_set ..).trans h.1, fun z hz => ?_⟩
      rcases getElem?_set_some hx hz with ⟨rfl, rfl⟩ | ⟨-, hz⟩
      · rw [hl.written, hl.hello_ok hg]
        exact h.2 x hx
      · exact h.2 z hz

/-- A step of the other end of connection `k`. -/
theorem Inv.later (h : Inv n w) {k : Nat} (hx : w.conns[k]? = some x) (hy : ConnInv n y)
    (hs : Served w.procs y) (hl : Later x y) : Inv n (w.setConn k y) where
  conn i z hz := by
    rcases getElem?_set_some hx hz with ⟨rfl, rfl⟩ | ⟨-, hz⟩
    · exact ⟨hy, hs⟩
    · exact h.conn i z hz
  phase := h.phase.later hx hl (h.conn k x hx).1.got_le

/-- `send_on` ends on connection `c`. -/
theorem Inv.finish (h : Inv n w) {c : Nat} {t : Attempt} {err : Bool}
    (hlen : w.conns.length = c + 1) (ht : Tried w.conns c) (hfit : t.Fits c)
    (hwritten : err = false → ∀ x, w.conns[c]? = some x → x.written = n + 1)
    (hs : w.finish c t err = some w') : Inv n w' := by
  unfold World.finish at hs
  cases hx : w.conns[c]? with
  | none =>
    rw [hx] at hs
    cases hs
  | some x =>
    simp only [hx] at hs
    obtain ⟨hconn, hserved⟩ := h.conn c x hx
    generalize hy : ({ x with broken := err || x.got == 0 } : Conn) = y at hs
    have hyinv : ConnInv n y := by
      subst hy
      exact { hconn with
        hello := fun hp r hr => (hconn.hello hp r hr).imp_right (And.imp_right fun hb =>
          ⟨hb.nothing, hb.unauthed, hb.past⟩) }
    have hyserved : Served w.procs y := by
      subst hy
      exact ⟨hserved.born, hserved.next⟩
    have hall : ∀ (i : Nat) z, (w.setConn c y).conns[i]? = some z →
        ConnInv n z ∧ Served w.procs z := by
      intro i z hz
      rcases getElem?_set_some hx hz with ⟨rfl, rfl⟩ | ⟨-, hz⟩
      · exact ⟨hyinv, hyserved⟩
      · exact h.conn i z hz
    have hlen' : (w.setConn c y).conns.length = c + 1 := (List.length_set ..).trans hlen
    have ht' : Tried (w.setConn c y).conns c := ht.set hx fun hlt => absurd hlt (Nat.lt_irrefl c)
    cases t with
    | again stale child =>
      obtain rfl := Option.some.inj hs
      exact ⟨hall, c, hlen', ht'⟩
    | first stale =>
      obtain rfl := Option.some.inj hs
      have hc : c = 0 := hfit
      subst hc
      refine ⟨hall, ?_⟩
      by_cases hok : (!err && x.hello_ok) = true
      · rw [if_pos hok]
        have hok : err = false ∧ x.hello_ok = true := by simpa using hok
        refine ⟨hlen', fun z hz => ?_⟩
        rcases getElem?_set_some hx hz with ⟨-, rfl⟩ | ⟨hne, -⟩
        · subst hy
          exact ⟨hwritten hok.1 x hx, hok.2⟩
        · exact absurd rfl hne
      · rw [if_neg hok]
        show Tried _ _
        rw [show (World.goto (w.setConn 0 y) (.deciding stale)).conns.length = 1 from hlen']
        refine ⟨Nat.le_refl _, fun i z hi hz => ?_⟩
        obtain rfl : i = 0 := by omega
        rcases getElem?_set_some hx hz with ⟨-, rfl⟩ | ⟨hne, -⟩
        · exact hconn.spent hok hy
        · exact absurd rfl hne

/-- `send_on` has written or read some more on connection `k`. -/
theorem Inv.sends (h : Inv n w) {k : Nat} (hx : w.conns[k]? = some x) (hy : ConnInv n y)
    (hs : Served w.procs y) {p : Phase} (hp : PhaseInv n (w.conns.set k y) p) :
    Inv n ((w.setConn k y).goto p) where
  conn i z hz := by
    rcases getElem?_set_some hx hz with ⟨rfl, rfl⟩ | ⟨-, hz⟩
    · exact ⟨hy, hs⟩
    · exact h.conn i z hz
  phase := hp

theorem getElem?_concat_some {l : List Conn} {i : Nat} {a x : Conn} (hx : (l ++ [a])[i]? = some x) :
    i = l.length ∧ x = a ∨ i < l.length ∧ l[i]? = some x := by
  rw [List.getElem?_append] at hx
  split at hx
  next hlt => exact .inr ⟨hlt, hx⟩
  next hge =>
    have hi := (List.getElem?_eq_some_iff.mp hx).1
    rw [List.length_singleton] at hi
    have heq : i = l.length := by omega
    rw [heq, Nat.sub_self] at hx
    exact .inl ⟨heq, (Option.some.inj hx).symm⟩

/-- A connection is made. -/
theorem Inv.connected (h : Inv n w) {rt : Runtime} {t : Attempt} {peer : Peer}
    (hp : w.phase = .connecting rt t) (hr : w.reaches rt peer = true) :
    Inv n { w with
      conns := w.conns ++ [.new peer rt.token]
      phase := .sending w.conns.length t } := by
  have hphase := h.phase
  rw [hp] at hphase
  have htried : Tried w.conns w.conns.length ∧ t.Fits w.conns.length := by
    cases t with
    | first stale =>
      have hlen : w.conns.length = 0 := hphase
      exact ⟨⟨by omega, fun i x hi _ => by omega⟩, hlen⟩
    | again stale child => exact ⟨hphase, trivial⟩
  have hserved : Served w.procs (.new peer rt.token) := by
    refine ⟨fun p hpeer => ?_, fun p port token hpeer _ ha => ?_⟩
    · obtain rfl : peer = .runtime p := hpeer
      constructor <;> intro hproc <;> simp [World.reaches, hproc] at hr
    · cases ha
  refine ⟨fun i x hx => ?_, ?_, ⟨htried.1.le, fun i x hi hx => ?_⟩, htried.2, fun x hx => ?_⟩
  · rcases getElem?_concat_some hx with ⟨-, rfl⟩ | ⟨-, hx⟩
    · exact ⟨.new n peer rt.token, hserved⟩
    · exact h.conn i x hx
  · exact List.length_append
  · rcases getElem?_concat_some hx with ⟨rfl, -⟩ | ⟨hlt, hx⟩
    · exact absurd hi (Nat.lt_irrefl _)
    · exact htried.1.spent i x hlt hx
  · rcases getElem?_concat_some hx with ⟨-, rfl⟩ | ⟨hlt, -⟩
    · exact Nat.zero_le n
    · exact absurd hlt (Nat.lt_irrefl _)

/-- One more line is written. -/
theorem Inv.write (h : Inv msgs.length w) (hs : step exe msgs w .write = some w') :
    Inv msgs.length w' := by
  have hphase := h.phase
  simp only [step] at hs
  split at hs
  next c t hp =>
    rw [hp] at hphase
    obtain ⟨hlen, htried, hfit, hwritten⟩ := hphase
    split at hs
    · cases hs
    next x hx =>
      obtain ⟨hconn, hserved⟩ := h.conn c x hx
      have hle := hwritten x hx
      generalize hy : ({ x with written := x.written + 1 } : Conn) = y at hs
      have hyinv : ConnInv msgs.length y := by
        subst hy
        exact { hconn with
          handled_le := Nat.le_succ_of_le hconn.handled_le
          written_le := Nat.succ_le_succ hle
          hello := fun hp r hr => (hconn.hello hp r hr).imp_right (And.imp_right fun hb =>
            ⟨hb.nothing, hb.unauthed, hb.past⟩) }
      have hyserved : Served w.procs y := by
        subst hy
        exact ⟨hserved.born, hserved.next⟩
      have hlen' : (w.conns.set c y).length = c + 1 := (List.length_set ..).trans hlen
      have htried' : Tried (w.conns.set c y) c :=
        htried.set hx fun hlt => absurd hlt (Nat.lt_irrefl c)
      have hat : ∀ z, (w.conns.set c y)[c]? = some z → z = y := by
        intro z hz
        rcases getElem?_set_some hx hz with ⟨-, rfl⟩ | ⟨hne, -⟩
        · rfl
        · exact absurd rfl hne
      obtain rfl := Option.some.inj hs
      split
      next hlast =>
        refine h.sends hx hyinv hyserved ⟨hlen', htried', hfit, fun z hz => ?_⟩
        rw [hat z hz, ← hy, ← hlast]
      next hmore =>
        have hgo := h.sends hx hyinv hyserved (p := w.phase) (by
          rw [hp]
          refine ⟨hlen', htried', hfit, fun z hz => ?_⟩
          rw [hat z hz, ← hy]
          exact Nat.lt_of_le_of_ne hle hmore)
        exact hgo
  · cases hs

/-- One more reply is read. -/
theorem Inv.readReply (h : Inv msgs.length w) (hs : step exe msgs w .readReply = some w') :
    Inv msgs.length w' := by
  have hphase := h.phase
  simp only [step] at hs
  split at hs
  next c t hp =>
    rw [hp] at hphase
    obtain ⟨hlen, htried, hfit, hwritten⟩ := hphase
    split at hs
    · cases hs
    next x hx =>
      obtain ⟨hconn, hserved⟩ := h.conn c x hx
      split at hs
      next hmore =>
        generalize hy : ({ x with got := x.got + 1 } : Conn) = y at hs
        have hyinv : ConnInv msgs.length y := by
          subst hy
          exact { hconn with
            got_le := hmore
            hello := fun hp r hr => (hconn.hello hp r hr).imp_right (And.imp_right fun hb =>
              ⟨hb.nothing, hb.unauthed, hb.past⟩) }
        have hyserved : Served w.procs y := by
          subst hy
          exact ⟨hserved.born, hserved.next⟩
        have hlen' : (w.conns.set c y).length = c + 1 := (List.length_set ..).trans hlen
        have htried' : Tried (w.conns.set c y) c :=
          htried.set hx fun hlt => absurd hlt (Nat.lt_irrefl c)
        have hwritten' : ∀ z, (w.conns.set c y)[c]? = some z → z.written = msgs.length + 1 := by
          intro z hz
          rcases getElem?_set_some hx hz with ⟨-, rfl⟩ | ⟨hne, -⟩
          · rw [← hy]
            exact hwritten x hx
          · exact absurd rfl hne
        have hgo := h.sends hx hyinv hyserved (p := w.phase) (by
          rw [hp]
          exact ⟨hlen', htried', hfit, hwritten'⟩)
        split at hs
        · exact Inv.finish hgo hlen' htried' hfit (fun _ => hwritten') hs
        · obtain rfl := Option.some.inj hs
          exact hgo
      · cases hs
  · cases hs

/-- `deliver` reads `runtime.json`: without a runtime it decides, and so far nothing is sent. -/
theorem Inv.read (h : Inv msgs.length w)
    (hs : step exe msgs w .read = some w') : Inv msgs.length w' := by
  have hphase := h.phase
  simp only [step] at hs
  split at hs
  next hp =>
    rw [hp] at hphase
    have hlen : w.conns.length = 0 := hphase
    split at hs
    · obtain rfl := Option.some.inj hs
      exact h.goto ⟨by omega, fun i x hi _ => by omega⟩
    · obtain rfl := Option.some.inj hs
      exact h.goto hlen
  next stale child exited hp =>
    rw [hp] at hphase
    split at hs <;> obtain rfl := Option.some.inj hs <;> exact h.goto hphase
  · cases hs

/-- No connection, or one that is fresh. -/
theorem Inv.connect (h : Inv msgs.length w) (peer : Option Peer)
    (hs : step exe msgs w (.connect peer) = some w') : Inv msgs.length w' := by
  have hphase := h.phase
  simp only [step] at hs
  split at hs
  next rt t hp =>
    cases peer with
    | none =>
      rw [hp] at hphase
      cases t with
      | first stale =>
        obtain rfl := Option.some.inj hs
        have hlen : w.conns.length = 0 := hphase
        exact h.goto ⟨by omega, fun i x hi _ => by omega⟩
      | again stale child =>
        obtain rfl := Option.some.inj hs
        exact h.goto hphase
    | some peer =>
      simp only at hs
      split at hs
      next hr =>
        obtain rfl := Option.some.inj hs
        exact h.connected hp hr
      · cases hs
  · cases hs

theorem Inv.writeError (h : Inv msgs.length w)
    (hs : step exe msgs w .writeError = some w') : Inv msgs.length w' := by
  have hphase := h.phase
  simp only [step] at hs
  split at hs
  next c t hp =>
    rw [hp] at hphase
    obtain ⟨hlen, htried, hfit, -⟩ := hphase
    exact h.finish hlen htried hfit (fun hf => by cases hf) hs
  · cases hs

/-- No time left: what was read counts. -/
theorem Inv.timeUp (h : Inv msgs.length w)
    (hs : step exe msgs w .timeUp = some w') : Inv msgs.length w' := by
  have hphase := h.phase
  simp only [step] at hs
  split at hs
  next c t hp =>
    rw [hp] at hphase
    obtain ⟨hlen, htried, hfit, hwritten⟩ := hphase
    exact h.finish hlen htried hfit (fun _ => hwritten) hs
  · cases hs

/-- The end of the connection: what was read counts. -/
theorem Inv.eof (h : Inv msgs.length w)
    (hs : step exe msgs w .eof = some w') : Inv msgs.length w' := by
  have hphase := h.phase
  simp only [step] at hs
  split at hs
  next c t hp =>
    rw [hp] at hphase
    obtain ⟨hlen, htried, hfit, hwritten⟩ := hphase
    split at hs
    · cases hs
    · split at hs
      · exact h.finish hlen htried hfit (fun _ => hwritten) hs
      · cases hs
  · cases hs

theorem Inv.readError (h : Inv msgs.length w)
    (hs : step exe msgs w .readError = some w') : Inv msgs.length w' := by
  have hphase := h.phase
  simp only [step] at hs
  split at hs
  next c t hp =>
    rw [hp] at hphase
    obtain ⟨hlen, htried, hfit, -⟩ := hphase
    exact h.finish hlen htried hfit (fun hf => by cases hf) hs
  · cases hs

/-- A runtime that is started is a new process. -/
theorem Inv.start (h : Inv msgs.length w) (child : Option Nat)
    (hs : step exe msgs w (.start child) = some w') : Inv msgs.length w' := by
  have hphase := h.phase
  simp only [step] at hs
  split at hs
  next stale hp =>
    rw [hp] at hphase
    split at hs
    · cases child with
      | none =>
        obtain rfl := Option.some.inj hs
        exact h.goto hphase
      | some pid =>
        simp only at hs
        split at hs
        next hnone =>
          obtain rfl := Option.some.inj hs
          exact ⟨fun i x hx => ⟨(h.conn i x hx).1, (h.conn i x hx).2.setProc (.inl (.inl hnone))⟩,
            hphase⟩
        · cases hs
    · obtain rfl := Option.some.inj hs
      exact h.goto hphase
  · cases hs

theorem Inv.deadline (h : Inv msgs.length w)
    (hs : step exe msgs w .deadline = some w') : Inv msgs.length w' := by
  have hphase := h.phase
  simp only [step] at hs
  split at hs
  next stale child hp =>
    rw [hp] at hphase
    obtain rfl := Option.some.inj hs
    exact h.goto hphase
  · cases hs

theorem Inv.tryWait (h : Inv msgs.length w)
    (hs : step exe msgs w .tryWait = some w') : Inv msgs.length w' := by
  have hphase := h.phase
  simp only [step] at hs
  split at hs
  next stale child hp =>
    rw [hp] at hphase
    obtain rfl := Option.some.inj hs
    exact h.goto hphase
  · cases hs

/-! ## The runtimes, and who else answers -/

/-- A runtime handles a line: the next one, unless it has begun to exit. -/
theorem Inv.handle (h : Inv msgs.length w) (c : Nat) (ok : Bool)
    (hs : step exe msgs w (.handle c ok) = some w') : Inv msgs.length w' := by
  simp only [step] at hs
  split at hs
  · cases hs
  next x hx =>
    split at hs
    · cases hs
    next pid hpeer =>
      split at hs
      next port token exiting hlive =>
        split at hs
        next hopen =>
          obtain rfl := Option.some.inj hs
          obtain ⟨hconn, hserved⟩ := h.conn c x hx
          have hp : x.peer ≠ .other := by simp [hpeer]
          have hdispatch : exiting = false → x.authed = true → x.applied.length + 1 = x.handled :=
            fun hex ha => hserved.next pid port token hpeer (hex ▸ hlive) ha hopen.1
          have hall : ConnInv msgs.length (x.handle msgs token exiting ok) ∧ _ :=
            hconn.handle hp hopen.1 hopen.2 token ok hdispatch
          obtain ⟨hy, hlater, hsame, hnext⟩ := hall
          refine h.later hx hy ⟨fun p hpp => ?_, fun p port' token' hpp hpl => ?_⟩ hlater
          · exact hserved.born p (hsame ▸ hpp)
          · rw [hsame, hpeer] at hpp
            obtain rfl := Peer.runtime.inj hpp
            rw [hlive] at hpl
            obtain ⟨-, -, hex⟩ := Process.live.inj (Option.some.inj hpl)
            exact hnext hex
        · cases hs
      · cases hs

/-- A closed connection answers no more, so what was barred stays so. -/
theorem Inv.hangUp (h : Inv msgs.length w) (c : Nat)
    (hs : step exe msgs w (.hangUp c) = some w') : Inv msgs.length w' := by
  simp only [step] at hs
  split at hs
  · cases hs
  next x hx =>
    obtain rfl := Option.some.inj hs
    obtain ⟨hconn, hserved⟩ := h.conn c x hx
    have hbar : x.Barred → ({ x with closed := true } : Conn).Barred := fun hb =>
      ⟨hb.nothing, hb.unauthed, .inr (.inr rfl)⟩
    refine h.later hx { hconn with
      hello := fun hp r hr => (hconn.hello hp r hr).imp_right (And.imp_right hbar)
      early := fun _ _ hf => ?_ } ⟨hserved.born, fun _ _ _ _ _ _ hf => ?_⟩
      ⟨rfl, rfl, rfl, List.prefix_rfl, hbar⟩
    · cases hf
    · cases hf

theorem Inv.helloTimeout (h : Inv msgs.length w) (c : Nat)
    (hs : step exe msgs w (.helloTimeout c) = some w') : Inv msgs.length w' := by
  simp only [step] at hs
  split at hs
  · cases hs
  next x hx =>
    split at hs
    next hopen =>
      obtain rfl := Option.some.inj hs
      obtain ⟨hconn, hserved⟩ := h.conn c x hx
      exact h.later hx (hconn.shut hopen.2).1 ⟨hserved.born, fun _ _ _ _ _ _ hf => by cases hf⟩
        (hconn.shut hopen.2).2
    · cases hs

/-- Another program answers what it likes, and applies nothing. -/
theorem Inv.foreign (h : Inv msgs.length w) (c : Nat) (r : Reply)
    (hs : step exe msgs w (.foreign c r) = some w') : Inv msgs.length w' := by
  simp only [step] at hs
  split at hs
  · cases hs
  next x hx =>
    split at hs
    next hp =>
      obtain rfl := Option.some.inj hs
      obtain ⟨hconn, hserved⟩ := h.conn c x hx
      have hne : ∀ {q : Prop}, (x.reply r x.closed).peer ≠ .other → q := fun hq => absurd hp hq
      refine h.later hx ⟨hconn.handled_le, hconn.written_le, ?_, hconn.range, hconn.few,
        hconn.unauthed, hconn.other, hne, fun hq => hne hq, fun hq => hne hq⟩
        ⟨hserved.born, hserved.next⟩ ⟨rfl, rfl, rfl, ⟨[r], rfl⟩,
          fun hb => ⟨hb.nothing, hb.unauthed, .inl hp⟩⟩
      exact Nat.le_trans hconn.got_le (by simp [Conn.reply])
    · cases hs

theorem Inv.spawn (h : Inv msgs.length w) (pid : Nat)
    (hs : step exe msgs w (.spawn pid) = some w') : Inv msgs.length w' := by
  simp only [step] at hs
  split at hs
  next hnone =>
    obtain rfl := Option.some.inj hs
    exact h.procs rfl rfl fun x hx => hx.setProc (.inl (.inl hnone))
  · cases hs

theorem Inv.up (h : Inv msgs.length w) (pid port : Nat) (token : Text)
    (hs : step exe msgs w (.up pid port token) = some w') : Inv msgs.length w' := by
  simp only [step] at hs
  split at hs
  next hstart =>
    obtain rfl := Option.some.inj hs
    exact h.procs rfl rfl fun x hx => hx.setProc (.inl (.inr hstart.1))
  · cases hs

theorem Inv.beginExit (h : Inv msgs.length w) (pid : Nat)
    (hs : step exe msgs w (.beginExit pid) = some w') : Inv msgs.length w' := by
  simp only [step] at hs
  split at hs
  next port token exiting hlive =>
    obtain rfl := Option.some.inj hs
    exact h.procs rfl rfl fun x hx => hx.setProc (.inr (.inl ⟨port, token, rfl⟩))
  · cases hs

theorem Inv.die (h : Inv msgs.length w) (pid : Nat)
    (hs : step exe msgs w (.die pid) = some w') : Inv msgs.length w' := by
  simp only [step] at hs
  split at hs
  · cases hs
  · cases hs
  · obtain rfl := Option.some.inj hs
    exact h.procs rfl rfl fun x hx => hx.setProc (.inr (.inr rfl))

theorem Inv.file (h : Inv msgs.length w) (rt : Option Runtime)
    (hs : step exe msgs w (.file rt) = some w') : Inv msgs.length w' := by
  obtain rfl := Option.some.inj hs
  exact h.procs rfl rfl fun _ hx => hx

theorem Inv.stop (h : Inv msgs.length w) (stopped : Bool)
    (hs : step exe msgs w (.stop stopped) = some w') : Inv msgs.length w' := by
  obtain rfl := Option.some.inj hs
  exact h.procs rfl rfl fun _ hx => hx

/-- **Every step keeps the invariant.** -/
theorem step_inv (h : Inv msgs.length w) (hs : step exe msgs w e = some w') :
    Inv msgs.length w' := by
  cases e with
  | read => exact h.read hs
  | connect peer => exact h.connect peer hs
  | write => exact h.write hs
  | writeError => exact h.writeError hs
  | readReply => exact h.readReply hs
  | timeUp => exact h.timeUp hs
  | eof => exact h.eof hs
  | readError => exact h.readError hs
  | start child => exact h.start child hs
  | deadline => exact h.deadline hs
  | tryWait => exact h.tryWait hs
  | handle c ok => exact h.handle c ok hs
  | hangUp c => exact h.hangUp c hs
  | helloTimeout c => exact h.helloTimeout c hs
  | foreign c r => exact h.foreign c r hs
  | spawn pid => exact h.spawn pid hs
  | up pid port token => exact h.up pid port token hs
  | beginExit pid => exact h.beginExit pid hs
  | die pid => exact h.die pid hs
  | file rt => exact h.file rt hs
  | stop stopped => exact h.stop stopped hs

/-! ## What a delivery comes to -/

/-- What `deliver` can be held to, for a batch of `n` messages. -/
structure Honest (n : Nat) (w : World) : Prop where
  twice : w.conns.length ≤ 2
  runs : ∀ x ∈ w.conns, x.applied = List.range x.applied.length ∧ x.applied.length ≤ n
  once : w.applied = List.range w.applied.length ∨ ∃ x y, w.conns = [x, y] ∧ x.broken = true
  dropped : w.phase = .done .dropped →
    w.conns.length ≤ 1 ∧ (w.applied = [] ∨ ∃ x, w.conns = [x] ∧ x.broken = true)
  sent : w.phase = .done .sent →
    ∃ x, w.conns = [x] ∧ x.written = n + 1 ∧ x.hello_ok = true
  handled : w.phase = .done .sent ∨ w.phase = .done .started →
    ∃ x, w.conns.getLast? = some x ∧ (x.applied = List.range n ∨ x.got ≤ n ∨
      (∃ r ∈ x.replies, r.carried = false) ∨ x.peer = .other)

/-- At most two connections, and of two the first is spent. -/
theorem PhaseInv.tried {conns : List Conn} {p : Phase} (h : PhaseInv n conns p) :
    conns = [] ∨ (∃ x, conns = [x]) ∨ ∃ x y, conns = [x, y] ∧ x.Spent := by
  have hof : ∀ c, conns.length = c + 1 → Tried conns c →
      (∃ x, conns = [x]) ∨ ∃ x y, conns = [x, y] ∧ x.Spent := by
    intro c hlen ht
    have hle := ht.le
    rcases Nat.le_one_iff_eq_zero_or_eq_one.mp hle with rfl | rfl
    · exact .inl (List.length_eq_one_iff.mp hlen)
    · obtain ⟨x, y, rfl⟩ := List.length_eq_two.mp hlen
      exact .inr ⟨x, y, rfl, ht.spent 0 x Nat.zero_lt_one rfl⟩
  have hall : Tried conns conns.length → conns = [] ∨ ∃ x, conns = [x] := by
    intro ht
    rcases Nat.le_one_iff_eq_zero_or_eq_one.mp ht.le with h0 | h1
    · exact .inl (List.eq_nil_of_length_eq_zero h0)
    · exact .inr (List.length_eq_one_iff.mp h1)
  cases p with
  | reading => exact .inl (List.eq_nil_of_length_eq_zero h)
  | connecting rt t =>
    cases t with
    | first => exact .inl (List.eq_nil_of_length_eq_zero h)
    | again => exact (hall h).imp_right .inl
  | deciding | polling | looking => exact (hall h).imp_right .inl
  | sending c t => exact .inr (hof c h.1 h.2.1)
  | awaiting c t => exact .inr (hof c h.1 h.2.1)
  | done d =>
    cases d with
    | dropped => exact (hall h).imp_right .inl
    | started =>
      obtain ⟨c, hlen, ht⟩ := h
      exact .inr (hof c hlen ht)
    | sent => exact .inr (.inl (List.length_eq_one_iff.mp h.1))

/-- What the invariant says once `deliver` has ended, and at any point before. -/
theorem Inv.honest (h : Inv n w) : Honest n w := by
  have hmem : ∀ x ∈ w.conns, ConnInv n x := fun x hx => by
    obtain ⟨i, hi⟩ := List.mem_iff_getElem?.mp hx
    exact (h.conn i x hi).1
  have hlast : w.conns ≠ [] → ∃ x, w.conns.getLast? = some x ∧ (x.applied = List.range n ∨
      x.got ≤ n ∨ (∃ r ∈ x.replies, r.carried = false) ∨ x.peer = .other) := by
    intro hne
    refine ⟨_, List.getLast?_eq_some_getLast hne, ?_⟩
    generalize hx : w.conns.getLast hne = x
    have hconn := hmem x (hx ▸ List.getLast_mem hne)
    by_cases hp : x.peer = .other
    · exact .inr (.inr (.inr hp))
    · by_cases hgot : x.got ≤ n
      · exact .inr (.inl hgot)
      · by_cases hall : ∀ r ∈ x.replies, r.carried = true
        · exact .inl (hconn.whole hp (Nat.lt_of_not_le hgot) hall)
        · obtain ⟨r, hr⟩ := Classical.not_forall.mp hall
          obtain ⟨hr, hcar⟩ := Classical.not_imp.mp hr
          exact .inr (.inr (.inl ⟨r, hr, by simpa using hcar⟩))
  refine ⟨?_, fun x hx => ⟨(hmem x hx).range, (hmem x hx).applied_le⟩, ?_, fun hp => ?_,
    fun hp => ?_, fun hp => hlast ?_⟩
  · rcases h.phase.tried with hc | ⟨x, hc⟩ | ⟨x, y, hc, -⟩ <;> simp [hc]
  · rcases h.phase.tried with hc | ⟨x, hc⟩ | ⟨x, y, hc, hs⟩
    · exact .inl (by simp [World.applied, hc])
    · refine .inl ?_
      have hx := (hmem x (by simp [hc])).range
      simpa [World.applied, hc] using hx
    · rcases hs with hb | hb
      · exact .inr ⟨x, y, hc, hb⟩
      · -- what was refused is not applied
        refine .inl ?_
        have hy := (hmem y (by simp [hc])).range
        simpa [World.applied, hc, hb.nothing] using hy
  · have hphase := h.phase
    rw [hp] at hphase
    have ht : Tried w.conns w.conns.length := hphase
    refine ⟨ht.le, ?_⟩
    rcases Nat.le_one_iff_eq_zero_or_eq_one.mp ht.le with h0 | h1
    · exact .inl (by simp [World.applied, List.eq_nil_of_length_eq_zero h0])
    · obtain ⟨x, hx⟩ := List.length_eq_one_iff.mp h1
      rcases ht.spent 0 x (by omega) (by simp [hx]) with hb | hb
      · exact .inr ⟨x, hx, hb⟩
      · exact .inl (by simp [World.applied, hx, hb.nothing])
  · have hphase := h.phase
    rw [hp] at hphase
    obtain ⟨hlen, hx⟩ := hphase
    obtain ⟨x, hc⟩ := List.length_eq_one_iff.mp hlen
    exact ⟨x, hc, hx x (by simp [hc])⟩
  · have hphase := h.phase
    rcases hp with hp | hp <;> rw [hp] at hphase
    · exact List.ne_nil_of_length_pos (by rw [hphase.1]; exact Nat.zero_lt_one)
    · obtain ⟨c, hlen, -⟩ := hphase
      exact List.ne_nil_of_length_pos (by omega)

/-- **What a delivery comes to**, in any state it or the runtimes after it can reach. -/
theorem delivery_honest (h : (delivery exe msgs).Reaches w) : Honest msgs.length w :=
  (h.invariant (P := Inv msgs.length) (fun _ hi => hi.inv)
    (fun _ _ _ hi hs => step_inv hi hs)).honest

/-! ## A stalled, and an exiting, runtime -/

/-- Runtime 7 is alive, and `runtime.json` names it. -/
def home : World where
  file := some ⟨5000, ['t'], some 7⟩
  stopped := false
  mutex := some 7
  procs := fun p => if p = 7 then some (.live 5000 ['t'] false) else none
  conns := []
  phase := .reading

/-- It stalls until the reads have timed out; the start exits on the mutex, and the batch
is sent again. -/
def stalled : List Event :=
  [.read, .connect (some (.runtime 7)), .write, .write, .readError, .start (some 8), .die 8,
    .tryWait, .read, .connect (some (.runtime 7)), .write, .write,
    .handle 0 true, .handle 0 true, .handle 1 true, .handle 1 true, .readReply, .readReply]

/-- It stalls, and there is no runtime to start. -/
def late : List Event :=
  [.read, .connect (some (.runtime 7)), .write, .write, .readError, .start none,
    .handle 0 true, .handle 0 true]

/-- It begins to exit between `hello` and the message. -/
def exits : List Event :=
  [.read, .connect (some (.runtime 7)), .write, .write, .handle 0 true, .beginExit 7,
    .handle 0 true, .readReply, .readReply]

/-- **Doubled, late and lost**: a message is applied twice; one is applied after `Dropped`;
and one is refused though `Sent`. -/
theorem delivery_doubles : Started home ∧
    (∃ w, (delivery true [['m']]).run home stalled = some w ∧ w.phase = .done .started ∧
      w.applied = [0, 0]) ∧
    (∃ w, (delivery false [['m']]).run home late = some w ∧ w.phase = .done .dropped ∧
      w.applied = [0]) ∧
    ∃ w, (delivery true [['m']]).run home exits = some w ∧ w.phase = .done .sent ∧
      w.applied = [] :=
  ⟨⟨rfl, rfl⟩, ⟨_, rfl, rfl, rfl⟩, ⟨_, rfl, rfl, rfl⟩, _, rfl, rfl, rfl⟩

/-- It answers everything in time. -/
def prompt : List Event :=
  [.read, .connect (some (.runtime 7)), .write, .write, .handle 0 true, .handle 0 true,
    .readReply, .readReply]

theorem delivery_honest_prompt : ∃ w, (delivery true [['m']]).run home prompt = some w ∧
    w.phase = .done .sent ∧ Honest 1 w := by
  refine ⟨_, rfl, rfl, ?_⟩
  have hreach : (delivery true [['m']]).Reaches _ := ⟨home, prompt, ⟨rfl, rfl⟩, rfl⟩
  exact delivery_honest hreach

end Sonara.Client
