import Mathlib.Data.List.TakeWhile
import Sonara.Lib.Roster

/-!
# Regular expressions that backtrack

An expression with groups, back references and looks around means the ways it can match from a
place in a text, in the order in which a matcher that backtracks tries them (`Re.ways`): the first
one is the match. `replaceAll` replaces the match at the leftmost place that has one, and goes on
behind it.

A run of one class of elements is matched as a whole when what follows cannot begin inside it
(`ways_many`, `ways_plus`): this is what makes a scanner without backtracking possible.
-/

namespace Lib

/-- A regular expression. -/
inductive Re (α : Type) where
  | eps
  | one (p : α → Bool)
  | seq (a b : Re α)
  /-- `a`, or else `b`. -/
  | alt (a b : Re α)
  /-- As often as possible (greedy), or as rarely. -/
  | star (greedy : Bool) (a : Re α)
  | group (i : Nat) (a : Re α)
  /-- The text of the group again. -/
  | back (i : Nat)
  | ahead (a : Re α)
  | notAhead (a : Re α)
  | notBehind (p : α → Bool)
  /-- The end of the text. -/
  | stop

/-- A place in a text: the text before it (backwards), the text behind it, and the groups so far. -/
structure Place (α : Type) where
  before : List α
  rest : List α
  groups : List (Nat × List α)
  deriving DecidableEq, Repr

variable {α : Type}

/-! ## Runs -/

theorem takeWhile_wider {p q : α → Bool} (h : ∀ c, p c = true → q c = true) (t : List α) :
    t.takeWhile q = t.takeWhile p ++ (t.dropWhile p).takeWhile q := by
  induction t with
  | nil => rfl
  | cons c cs ih =>
    cases hp : p c with
    | true => simp [hp, h c hp, ih]
    | false => simp [hp]

theorem dropWhile_wider {p q : α → Bool} (h : ∀ c, p c = true → q c = true) (t : List α) :
    t.dropWhile q = (t.dropWhile p).dropWhile q := by
  induction t with
  | nil => rfl
  | cons c cs ih =>
    cases hp : p c with
    | true => simp [hp, h c hp, ih]
    | false => simp [hp]

theorem head_dropWhile (p : α → Bool) (t : List α) : (t.dropWhile p).head?.any p = false := by
  induction t with
  | nil => rfl
  | cons c cs ih => cases hc : p c <;> simp [hc, ih]

/-- A run is empty or not as its class holds at its start. -/
theorem takeWhile_ne_nil {p : α → Bool} {t : List α} :
    t.takeWhile p ≠ [] ↔ t.head?.any p = true := by
  cases t with
  | nil => simp
  | cons c cs => cases hc : p c <;> simp [hc]

namespace Place

variable (s : Place α)

/-- The place `n` elements on. -/
def skip (n : Nat) : Place α :=
  { s with before := (s.rest.take n).reverse ++ s.before, rest := s.rest.drop n }

/-- The place behind the elements of a class. -/
def past (p : α → Bool) : Place α :=
  { s with before := (s.rest.takeWhile p).reverse ++ s.before, rest := s.rest.dropWhile p }

/-- The text between two places. -/
def upTo (s' : Place α) : List α := s.rest.take (s.rest.length - s'.rest.length)

@[simp] theorem past_rest (p : α → Bool) : (s.past p).rest = s.rest.dropWhile p := rfl

/-- The text between a place and the end of a run is the run. -/
theorem upTo_past (p : α → Bool) : s.upTo (s.past p) = s.rest.takeWhile p := by
  have hlen : s.rest.length - (s.rest.dropWhile p).length = (s.rest.takeWhile p).length := by
    have hsplit := congrArg List.length (List.takeWhile_append_dropWhile (p := p) (l := s.rest))
    rw [List.length_append] at hsplit
    omega
  unfold upTo
  rw [past_rest, hlen]
  exact (List.prefix_iff_eq_take.mp (List.takeWhile_prefix p)).symm

/-- A run of a class goes on as a run of a wider one. -/
theorem past_past {p q : α → Bool} (h : ∀ c, p c = true → q c = true) (s : Place α) :
    (s.past p).past q = s.past q := by
  unfold past
  dsimp only
  rw [takeWhile_wider h s.rest, dropWhile_wider h s.rest, List.reverse_append, List.append_assoc]

theorem past_of_not {p : α → Bool} {s : Place α} (h : s.rest.head?.any p = false) :
    s.past p = s := by
  obtain ⟨before, rest, groups⟩ := s
  cases rest with
  | nil => rfl
  | cons c cs =>
    have hc : p c = false := h
    simp [past, hc]

theorem past_cons {p : α → Bool} {c : α} {before cs : List α} {groups : List (Nat × List α)}
    (hc : p c = true) :
    past ⟨before, c :: cs, groups⟩ p = past ⟨c :: before, cs, groups⟩ p := by
  simp [past, hc]

end Place

namespace Re

def opt (a : Re α) : Re α := alt a eps

def plus (a : Re α) : Re α := seq a (star true a)

/-- At least once, as rarely as possible. -/
def plusLazy (a : Re α) : Re α := seq a (star false a)

/-- A text, letter by letter. -/
def word [DecidableEq α] : List α → Re α
  | [] => eps
  | c :: cs => seq (one (· == c)) (word cs)

/-- `f` again and again, each time further on; `n` bounds how often. -/
def again (greedy : Bool) (f : Place α → List (Place α)) : Nat → Place α → List (Place α)
  | 0, s => [s]
  | n + 1, s =>
    let more := (f s).flatMap fun s' => if s'.rest.length <
      s.rest.length then again greedy f n s' else []
    if greedy then more ++ [s] else s :: more

/-- Where the expression can end from a place, the preferred way first. -/
def ways [DecidableEq α] : Re α → Place α → List (Place α)
  | eps, s => [s]
  | one p, s =>
    match s.rest with
    | c :: cs => if p c then [{ s with before := c :: s.before, rest := cs }] else []
    | [] => []
  | seq a b, s => (ways a s).flatMap (ways b)
  | alt a b, s => ways a s ++ ways b s
  | star greedy a, s => again greedy (ways a) s.rest.length s
  | group i a, s => (ways a s).map fun s' => { s' with groups := (i, s.upTo s') :: s'.groups }
  | back i, s =>
    match lookup i s.groups with
    | some t => if t.isPrefixOf s.rest then [s.skip t.length] else []
    | none => []
  | ahead a, s => if ways a s = [] then [] else [s]
  | notAhead a, s => if ways a s = [] then [s] else []
  | notBehind p, s => if s.before.head?.any p then [] else [s]
  | stop, s => if s.rest = [] then [s] else []

variable [DecidableEq α]

/-- The match at a place. -/
def first (r : Re α) (s : Place α) : Option (Place α) := (r.ways s).head?

/-- The leftmost match: where it starts and where it ends. -/
def find (r : Re α) (before : List α) : List α → Option (Place α × Place α)
  | [] => (r.first ⟨before, [], []⟩).map fun s' => (⟨before, [], []⟩, s')
  | c :: cs =>
    match r.first ⟨before, c :: cs, []⟩ with
    | some s' => some (⟨before, c :: cs, []⟩, s')
    | none => find r (c :: before) cs

/-- Every match from a place on replaced by `f` of its text and groups; `n` bounds the steps. A
match of nothing is passed over. -/
def replaceFrom (r : Re α) (f : List α → List (Nat × List α) → List α) :
    Nat → List α → List α → List α
  | 0, _, rest => rest
  | n + 1, before, rest =>
    match (r.first ⟨before, rest, []⟩).filter fun s' => s'.rest.length < rest.length with
    | some s' =>
      f (Place.upTo ⟨before, rest, []⟩ s') s'.groups ++ replaceFrom r f n s'.before s'.rest
    | none =>
      match rest with
      | [] => []
      | c :: cs => c :: replaceFrom r f n (c :: before) cs

/-- Every match from a place on replaced. -/
def replaceAt (r : Re α) (f : List α → List (Nat × List α) → List α) (before rest : List α) :
    List α :=
  replaceFrom r f rest.length before rest

/-- Every match in a text replaced. -/
def replaceAll (r : Re α) (f : List α → List (Nat × List α) → List α) (t : List α) : List α :=
  replaceAt r f [] t

/-! ## The ways of an expression -/

variable {a b r : Re α} {p q : α → Bool} {s s' : Place α} {before rest cs : List α} {c : α}
  {groups : List (Nat × List α)} {f : List α → List (Nat × List α) → List α}

@[simp] theorem ways_eps : ways eps s = [s] := rfl

@[simp] theorem ways_seq : ways (seq a b) s = (ways a s).flatMap (ways b) := rfl

@[simp] theorem ways_alt : ways (alt a b) s = ways a s ++ ways b s := rfl

@[simp] theorem ways_opt : ways (opt a) s = ways a s ++ [s] := rfl

@[simp] theorem ways_one_nil : ways (one p) ⟨before, [], groups⟩ = [] := rfl

@[simp] theorem ways_one_cons : ways (one p) ⟨before, c :: cs, groups⟩ =
    if p c then [⟨c :: before, cs, groups⟩] else [] := rfl

theorem ways_group (i : Nat) : ways (group i a) s =
    (ways a s).map fun s' => { s' with groups := (i, s.upTo s') :: s'.groups } := rfl

theorem ways_back {i : Nat} {t : List α} (h : lookup i s.groups = some t) :
    ways (back i) s = if t.isPrefixOf s.rest then [s.skip t.length] else [] := by
  unfold ways
  rw [h]

theorem ways_ahead : ways (ahead a) s = if ways a s = [] then [] else [s] := rfl

theorem ways_notAhead : ways (notAhead a) s = if ways a s = [] then [s] else [] := rfl

/-- More rounds than there are elements left change nothing. -/
theorem again_eq (greedy : Bool) (f : Place α → List (Place α)) {n : Nat} {s : Place α}
    (h : s.rest.length ≤ n) :
    again greedy f n s = again greedy f s.rest.length s := by
  induction hn : s.rest.length using Nat.strongRecOn generalizing n s with
  | ind m ih =>
    subst hn
    have hstep : ∀ k, s.rest.length = k + 1 → ∀ n, k ≤ n → (f s).flatMap (fun s' =>
        if s'.rest.length < s.rest.length then again greedy f n s' else []) = (f s).flatMap
        (fun s' =>
        if s'.rest.length < s.rest.length then again greedy f s'.rest.length s' else []) := by
      intro k hk n hkn
      refine List.flatMap_congr fun s' _ => ?_
      split
      next hlt => exact ih _ hlt (by omega) rfl
      · rfl
    cases hr : s.rest.length with
    | zero =>
      cases n with
      | zero => rfl
      | succ n =>
        have hnone : (f s).flatMap (fun s' =>
            if s'.rest.length < s.rest.length then again greedy f n s' else []) = [] := by
          rw [List.flatMap_eq_nil_iff]
          intro s' _
          rw [if_neg (by omega)]
        unfold again
        rw [hnone]
        cases greedy <;> rfl
    | succ k =>
      cases n with
      | zero => omega
      | succ n =>
        unfold again
        rw [hstep k hr n (by omega), hstep k hr k (Nat.le_refl k)]

/-- One round, and again. -/
theorem ways_star (greedy : Bool) : ways (star greedy a) s =
    let more := (ways a s).flatMap fun s' =>
      if s'.rest.length < s.rest.length then ways (star greedy a) s' else []
    if greedy then more ++ [s] else s :: more := by
  have hround : ways (star greedy a) s = again greedy (ways a) (s.rest.length + 1) s :=
    (again_eq greedy (ways a) (Nat.le_succ _)).symm
  rw [hround]
  unfold again
  have hmore : (ways a s).flatMap (fun s' =>
      if s'.rest.length < s.rest.length then again greedy (ways a) s.rest.length s' else []) =
      (ways a s).flatMap fun s' => if s'.rest.length < s.rest.length then ways
        (star greedy a) s' else [] := by
    refine List.flatMap_congr fun s' _ => ?_
    split
    next hlt => exact again_eq greedy (ways a) (Nat.le_of_lt hlt)
    · rfl
  rw [hmore]

/-- No round. -/
theorem ways_star_none {greedy : Bool} (h : ways a s = []) : ways (star greedy a) s = [s] := by
  rw [ways_star, h]
  cases greedy <;> rfl

theorem ways_star_cons (hc : p c = true) : ways (star true (one p)) ⟨before, c :: cs, groups⟩ =
    ways (star true (one p)) ⟨c :: before, cs, groups⟩ ++ [⟨before, c :: cs, groups⟩] := by
  rw [ways_star]
  simp [hc]

theorem ways_star_stop (h : ∀ c ∈ s.rest.head?, p c = false) :
    ways (star true (one p)) s = [s] := by
  obtain ⟨before, rest, groups⟩ := s
  refine ways_star_none ?_
  cases rest with
  | nil => rfl
  | cons c cs => simp [h c rfl]

/-- The ways of a greedy run: the whole run, and then those that leave some of it. -/
theorem ways_many (p : α → Bool) (s : Place α) :
    ∃ less, ways (star true (one p)) s = s.past p :: less ∧
    ∀ s' ∈ less, ∃ c cs, s'.rest = c :: cs ∧ p c = true ∧ s'.groups = s.groups := by
  obtain ⟨before, rest, groups⟩ := s
  induction rest generalizing before with
  | nil => exact ⟨[], rfl, fun s' hs' => absurd hs' List.not_mem_nil⟩
  | cons c cs ih =>
    cases hc : p c with
    | true =>
      obtain ⟨less, hless, hin⟩ := ih (c :: before)
      refine ⟨less ++ [⟨before, c :: cs, groups⟩], ?_, fun s' hs' => ?_⟩
      · rw [ways_star_cons hc, hless]
        unfold Place.past
        dsimp only
        rw [List.takeWhile_cons_of_pos hc, List.dropWhile_cons_of_pos hc, List.reverse_cons,
          List.append_assoc]
        rfl
      · rcases List.mem_append.mp hs' with hs' | hs'
        · exact hin s' hs'
        · rw [List.mem_singleton.mp hs']
          exact ⟨c, cs, rfl, hc, rfl⟩
    | false =>
      refine ⟨[], ?_, fun s' hs' => absurd hs' List.not_mem_nil⟩
      have hstop : ways (star true (one p)) ⟨before, c :: cs, groups⟩ =
          [⟨before, c :: cs, groups⟩] :=
        ways_star_stop fun x hx => by cases hx; exact hc
      rw [hstop]
      unfold Place.past
      dsimp only
      rw [List.takeWhile_cons_of_neg (by simp [hc]), List.dropWhile_cons_of_neg (by simp [hc])]
      rfl

/-- The same of a run that is not empty. -/
theorem ways_plus (p : α → Bool) (s : Place α) : ∃ less,
    ways (plus (one p)) s = (if s.rest.head?.any p then [s.past p] else []) ++ less ∧
    ∀ s' ∈ less, ∃ c cs, s'.rest = c :: cs ∧ p c = true ∧ s'.groups = s.groups := by
  obtain ⟨before, rest, groups⟩ := s
  cases rest with
  | nil => exact ⟨[], rfl, fun s' hs' => absurd hs' List.not_mem_nil⟩
  | cons c cs =>
    cases hc : p c with
    | false =>
      refine ⟨[], ?_, fun s' hs' => absurd hs' List.not_mem_nil⟩
      simp [plus, hc]
    | true =>
      obtain ⟨less, hless, hin⟩ := ways_many p ⟨c :: before, cs, groups⟩
      refine ⟨less, ?_, hin⟩
      have hover : Place.past ⟨c :: before, cs, groups⟩ p = Place.past
          ⟨before, c :: cs, groups⟩ p := by
        unfold Place.past
        dsimp only
        rw [List.takeWhile_cons_of_pos hc, List.dropWhile_cons_of_pos hc, List.reverse_cons,
          List.append_assoc]
        rfl
      simp [plus, hc, hless, hover]

omit [DecidableEq α] in
/-- What follows a run and cannot begin inside it follows the whole run. -/
theorem flatMap_run {whole less : List (Place α)} {k : Place α → List (Place α)}
    (hless : ∀ s' ∈ less, k s' = []) : (whole ++ less).flatMap k = whole.flatMap k := by
  rw [List.flatMap_append, List.flatMap_eq_nil_iff.mpr hless, List.append_nil]

/-- A word matches in one way, or in none. -/
theorem ways_word {t : List α} : ways (word t) s = if t.isPrefixOf s.rest then
    [s.skip t.length] else [] := by
  induction t generalizing s with
  | nil => simp [word, Place.skip]
  | cons c cs ih =>
    obtain ⟨before, rest, groups⟩ := s
    cases rest with
    | nil => simp [word]
    | cons d ds =>
      by_cases hdc : d = c
      · subst hdc
        simp [word, ih, Place.skip]
      · simp [word, hdc, Ne.symm hdc]

/-- A run as short as possible: what follows is tried first. -/
theorem first_lazy : first (seq (star false (one p)) b) ⟨before, c :: cs, groups⟩ =
    (first b ⟨before, c :: cs, groups⟩).or
      (if p c then first (seq (star false (one p)) b) ⟨c :: before, cs, groups⟩ else none) := by
  unfold first
  rw [ways_seq, ways_star]
  cases hc : p c <;> simp [hc]

theorem first_lazy_nil : first (seq (star false (one p)) b) ⟨before, [], groups⟩ = first b
    ⟨before, [], groups⟩ := by
  unfold first
  rw [ways_seq, ways_star]
  simp

theorem first_plus : first (plus (one p)) s = if s.rest.head?.any p then some
    (s.past p) else none := by
  obtain ⟨before, rest, groups⟩ := s
  cases rest with
  | nil => rfl
  | cons c cs =>
    cases hc : p c with
    | true =>
      obtain ⟨less, hways, -⟩ := ways_plus p ⟨before, c :: cs, groups⟩
      rw [first, hways]
      simp [hc]
    | false => simp [first, plus, hc]

theorem first_eq_none : first r s = none ↔ ways r s = [] := List.head?_eq_none_iff

/-! ## Replacing -/

/-- With enough fuel `replaceFrom` is the replacement of all matches. -/
theorem replaceFrom_eq {n : Nat} (h : rest.length ≤ n) :
    replaceFrom r f n before rest = replaceAt r f before rest := by
  unfold replaceAt
  induction hn : rest.length using Nat.strongRecOn generalizing n before rest with
  | ind m ih =>
    subst hn
    cases n with
    | zero =>
      have hnil : rest = [] := List.length_eq_zero_iff.mp (by omega)
      subst hnil
      rfl
    | succ n =>
      cases rest with
      | nil =>
        show (match (r.first ⟨before, [], []⟩).filter fun s' => s'.rest.length < 0 with
          | some s' => _
          | none => _) = ([] : List α)
        cases hfirst : r.first ⟨before, [], []⟩ with
        | none => rfl
        | some s' => rfl
      | cons c cs =>
        have hn : cs.length ≤ n := by
          rw [List.length_cons] at h
          omega
        show replaceFrom r f (n + 1) before (c :: cs) = replaceFrom r f
          (cs.length + 1) before (c :: cs)
        unfold replaceFrom
        cases hfirst : (r.first ⟨before, c :: cs, []⟩).filter fun s' =>
          s'.rest.length < (c :: cs).length with
        | none =>
          dsimp only
          rw [ih cs.length (Nat.lt_succ_self _) hn rfl]
        | some s' =>
          have hlt : s'.rest.length < cs.length + 1 := by
            have := (Option.filter_eq_some_iff.mp hfirst).2
            simpa using this
          dsimp only
          rw [ih s'.rest.length hlt (by omega) rfl,
            ← ih s'.rest.length hlt (n := cs.length) (by omega) rfl]

/-- The leftmost match is replaced. -/
theorem replaceAt_match (h : r.first ⟨before, rest, []⟩ = some s')
    (hlt : s'.rest.length < rest.length) :
    replaceAt r f before rest =
      f (Place.upTo ⟨before, rest, []⟩ s') s'.groups ++ replaceAt r f s'.before s'.rest := by
  cases rest with
  | nil => exact absurd hlt (Nat.not_lt_zero _)
  | cons c cs =>
    have hfilter : (r.first ⟨before, c :: cs, []⟩).filter
        (fun s' => s'.rest.length < (c :: cs).length) = some s' := by
      rw [h, Option.filter_some, if_pos (decide_eq_true hlt)]
    show replaceFrom r f (cs.length + 1) before (c :: cs) = _
    unfold replaceFrom
    rw [hfilter]
    dsimp only
    rw [replaceFrom_eq (Nat.le_of_lt_succ hlt)]

/-- Where nothing matches an element stays. -/
theorem replaceAt_skip (h : r.first ⟨before, c :: cs, []⟩ = none) :
    replaceAt r f before (c :: cs) = c :: replaceAt r f (c :: before) cs := by
  show replaceFrom r f (cs.length + 1) before (c :: cs) = _
  unfold replaceFrom
  rw [h]
  rfl

/-- Where nothing matches inside a run, the run stays. -/
theorem replaceAt_past (h : ∀ c before cs, p c = true → before.head?.any p = true →
    r.first ⟨before, c :: cs, []⟩ = none) (hbefore : before.head?.any p = true) :
    replaceAt r f before rest = rest.takeWhile p ++
      replaceAt r f ((rest.takeWhile p).reverse ++ before) (rest.dropWhile p) := by
  induction rest generalizing before with
  | nil => rfl
  | cons c cs ih =>
    cases hc : p c with
    | true =>
      have hcs : (c :: before).head?.any p = true := hc
      rw [replaceAt_skip (h c before cs hc hbefore), ih hcs, List.takeWhile_cons_of_pos hc,
        List.dropWhile_cons_of_pos hc, List.reverse_cons, List.append_assoc]
      rfl
    | false =>
      rw [List.takeWhile_cons_of_neg (by simp [hc]), List.dropWhile_cons_of_neg (by simp [hc])]
      rfl

/-- Where the leftmost match of an expression that every match of `r` begins with is: up to there
nothing of `r` matches. -/
theorem replaceAt_find (f : List α → List (Nat × List α) → List α) (before rest : List α)
    (hbegins : ∀ s, a.first s = none → r.first s = none) :
    (find a before rest = none → replaceAt r f before rest = rest) ∧
    ∀ m e, find a before rest = some (m, e) → a.first m = some e ∧ m.groups = [] ∧
      rest = Place.upTo ⟨before, rest, []⟩ m ++ m.rest ∧
      replaceAt r f before rest = Place.upTo ⟨before, rest, []⟩ m ++
      replaceAt r f m.before m.rest := by
  induction rest generalizing before with
  | nil =>
    refine ⟨fun _ => rfl, fun m e h => ?_⟩
    obtain ⟨e', he, h⟩ := Option.map_eq_some_iff.mp h
    cases h
    exact ⟨he, rfl, rfl, rfl⟩
  | cons c cs ih =>
    unfold find
    cases hfirst : a.first ⟨before, c :: cs, []⟩ with
    | some e' =>
      refine ⟨fun h => absurd h (Option.some_ne_none _), fun m e h => ?_⟩
      cases h
      have hnone : Place.upTo ⟨before, c :: cs, []⟩
        ⟨before, c :: cs, []⟩ = [] := by simp [Place.upTo]
      rw [hnone]
      exact ⟨hfirst, rfl, rfl, rfl⟩
    | none =>
      obtain ⟨hnone, hsome⟩ := ih (c :: before)
      have hskip := replaceAt_skip (f := f) (hbegins _ hfirst)
      refine ⟨fun h => by rw [hskip, hnone h], fun m e h => ?_⟩
      obtain ⟨he, hgroups, hrest, hat⟩ := hsome m e h
      have hlen : m.rest.length ≤ cs.length := by
        rw [hrest, List.length_append]
        exact Nat.le_add_left _ _
      have hupTo : Place.upTo ⟨before, c :: cs, []⟩ m = c :: Place.upTo
          ⟨c :: before, cs, []⟩ m := by
        unfold Place.upTo
        dsimp only
        rw [List.length_cons, Nat.succ_sub hlen, List.take_succ_cons]
      rw [hskip, hupTo]
      exact ⟨he, hgroups, congrArg (c :: ·) hrest, congrArg (c :: ·) hat⟩

end Re

end Lib
