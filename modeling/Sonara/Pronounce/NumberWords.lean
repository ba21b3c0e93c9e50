import Mathlib.Data.Nat.Digits.Defs
import Sonara.Lib.Words
import Sonara.Pronounce.Numbers

/-!
# Number words are read back

A reader of English number words adds what stands for units and tens, multiplies by a hundred at
"hundred", closes a group at its scale word and passes over "and" (`readNumber`). It finds the
number again in the words of every `u64` (`cardinal_read`), so no two numbers have the same
words. A group of three digits is read from an empty sum to its value (`belowThousand_read`),
wherever the wording puts an "and"; the groups above the lowest are read from a total to the next
one (`groupWords_read`), a group of zeros without a word. A `u64` has seven groups at most
(`groups_length`), as many as there are scale words, so no index leaves its table.
-/

namespace Sonara.Pronounce

open Lib

/-! ## The reader -/

/-- What a number word says. -/
inductive NumberWord where
  | units (n : Nat)
  | hundred
  | scale (n : Nat)
  | filler
  deriving DecidableEq, Repr

/-- The number word written `w`. -/
def numberWord (w : Text) : Option NumberWord :=
  if w = [] then none
  else if w = "and".toList then some .filler
  else if w = "hundred".toList then some .hundred
  else match ones.idxOf? w with
    | some n => some (.units n)
    | none =>
      match tens.idxOf? w with
      | some n => some (.units (10 * n))
      | none => (scales.idxOf? w).map fun i => .scale (1000 ^ i)

/-- What a word does to the total of the groups that are closed and the sum of the open one. -/
def advance (s : Nat × Nat) : NumberWord → Nat × Nat
  | .units n => (s.1, s.2 + n)
  | .hundred => (s.1, s.2 * 100)
  | .scale n => (s.1 + s.2 * n, 0)
  | .filler => s

abbrev readFrom (s : Nat × Nat) (t : Text) : Option (Nat × Nat) :=
  readText ' ' numberWord advance s t

abbrev readGroups (s : Nat × Nat) (ps : List Text) : Option (Nat × Nat) :=
  readParts ' ' numberWord advance s ps

/-- The number that number words say. -/
def readNumber (t : Text) : Option Nat := (readFrom (0, 0) t).map fun s => s.1 + s.2

variable {total sum : Nat} {s s' : Nat × Nat}

/-! ## The tables -/

/-- `w` is one word, and says `x`. -/
structure Names (w : Text) (x : NumberWord) : Prop where
  single : ' ' ∉ w
  word : numberWord w = some x

instance (w : Text) (x : NumberWord) : Decidable (Names w x) :=
  decidable_of_iff (' ' ∉ w ∧ numberWord w = some x)
    ⟨fun h => ⟨h.1, h.2⟩, fun h => ⟨h.single, h.word⟩⟩

theorem Names.read {w : Text} {x : NumberWord} (h : Names w x) :
    readFrom s w = some (advance s x) :=
  readText_word h.single h.word

theorem hundred_names : Names "hundred".toList .hundred := by decide

theorem and_names : Names "and".toList .filler := by decide

/-- An entry of a table that says `x`. -/
def Entry (o : Option Text) (x : NumberWord) : Bool := o.any fun w => decide (Names w x)

theorem Entry.names {o : Option Text} {x : NumberWord} (h : Entry o x = true) :
    ∃ w, o = some w ∧ Names w x := by
  cases o with
  | none => cases h
  | some w => exact ⟨w, rfl, of_decide_eq_true h⟩

theorem ones_entry : ∀ n < 20, Entry ones[n]? (.units n) = true := by decide

theorem tens_entry : ∀ n < 10, 2 ≤ n → Entry tens[n]? (.units (10 * n)) = true := by decide

theorem scales_entry : ∀ i < 7, 1 ≤ i → Entry scales[i]? (.scale (1000 ^ i)) = true := by decide

/-! ## One group -/

/-- The words below a hundred are read as their number. -/
theorem belowHundred_read {n : Nat} (h : n < 100) :
    ∃ w, belowHundred n = some w ∧ ∀ total sum, readFrom (total, sum) w = some
    (total, sum + n) := by
  unfold belowHundred
  split
  next hn =>
    obtain ⟨w, hw, hword⟩ := Entry.names (ones_entry n hn)
    exact ⟨w, hw, fun total sum => hword.read⟩
  next hn =>
    obtain ⟨t, ht, htens⟩ := Entry.names (tens_entry (n / 10) (by omega) (by omega))
    split
    next hmod =>
      refine ⟨t, ht, fun total sum => ?_⟩
      have hten : 10 * (n / 10) = n := by omega
      rw [htens.read, hten]
      rfl
    next hmod =>
      obtain ⟨o, ho, hones⟩ := Entry.names (ones_entry (n % 10) (by omega))
      refine ⟨t ++ ' ' :: o, by rw [ht, ho]; rfl, fun total sum => ?_⟩
      have hsum : sum + 10 * (n / 10) + n % 10 = sum + n := by omega
      have hread : readFrom (total, sum) (t ++ ' ' :: o) = some
          (total, sum + 10 * (n / 10) + n % 10) :=
        readText_join htens.read hones.read
      rw [hread, hsum]

/-- A group is read from an empty sum, an "and" in it or not. -/
theorem belowThousand_read {n : Nat} (h : n < 1000) :
    ∃ w, belowThousand n = some w ∧ ∀ total, readFrom (total, 0) w = some (total, n) := by
  unfold belowThousand
  split
  next hn =>
    obtain ⟨w, hw, hread⟩ := @belowHundred_read (n % 100) (Nat.mod_lt _ (by omega))
    refine ⟨w, hw, fun total => ?_⟩
    have hmod : 0 + n % 100 = n := by omega
    rw [hread total 0, hmod]
  next hn =>
    obtain ⟨d, hd, hones⟩ := Entry.names (ones_entry (n / 100) (by omega))
    rw [hd]
    -- "... hundred" leaves the hundreds as the sum
    have hhundred : ∀ total, readFrom (total, 0) (d ++ ' ' :: "hundred".toList) = some
        (total, (0 + n / 100) * 100) :=
      fun total => readText_join hones.read hundred_names.read
    by_cases hmod : n % 100 = 0
    · refine ⟨_, if_pos hmod, fun total => ?_⟩
      have hn : (0 + n / 100) * 100 = n := by omega
      rw [hhundred, hn]
    · obtain ⟨w, hw, hread⟩ := @belowHundred_read (n % 100) (Nat.mod_lt _ (by omega))
      refine ⟨d ++ ' ' :: ("hundred".toList ++ ' ' :: ("and".toList ++ ' ' :: w)), ?_,
        fun total => ?_⟩
      · rw [hw]
        exact if_neg hmod
      · have hn : (0 + n / 100) * 100 + n % 100 = n := by omega
        have hrest : readFrom (total, (0 + n / 100) * 100) ("and".toList ++ ' ' :: w) = some
            (total, n) :=
          (readText_join and_names.read (hread _ _)).trans (by rw [hn])
        exact readText_join hones.read (readText_join hundred_names.read hrest)

/-! ## Groups -/

theorem groups_lt {n m g : Nat} (h : g ∈ groups n m) : g < 1000 := by
  induction n generalizing m with
  | zero => cases h
  | succ n ih =>
    unfold groups at h
    split at h
    · cases h
    · rcases List.mem_cons.mp h with rfl | h
      · exact Nat.mod_lt m (by omega)
      · exact ih h

/-- In enough rounds the groups are those of the number. -/
theorem groups_value {n m : Nat} (h : m < 1000 ^ n) : Nat.ofDigits 1000 (groups n m) = m := by
  induction n generalizing m with
  | zero =>
    have hm : m = 0 := by omega
    rw [hm]
    rfl
  | succ n ih =>
    unfold groups
    split
    next hm =>
      rw [hm]
      rfl
    next hm =>
      rw [Nat.pow_succ] at h
      rw [Nat.ofDigits_cons, ih (by omega)]
      exact Nat.mod_add_div m 1000

/-- A number has no more groups than its size. -/
theorem groups_length {n m k : Nat} (h : m < 1000 ^ k) : (groups n m).length ≤ k := by
  induction n generalizing m k with
  | zero => exact Nat.zero_le k
  | succ n ih =>
    unfold groups
    split
    · exact Nat.zero_le k
    next hm =>
      cases k with
      | zero => omega
      | succ k =>
        rw [Nat.pow_succ] at h
        have := @ih (m / 1000) k (by omega)
        rw [List.length_cons]
        omega

/-- The groups above the lowest are read from a total to the next one, nothing left open. -/
theorem groupWords_read (several : Bool) {i : Nat} {gs : List Nat} (hi : 1 ≤ i)
    (hlen : i + gs.length ≤ 7)
    (hgs : ∀ g ∈ gs, g < 1000) : ∃ ps, groupWords several i gs = some ps ∧
      ∀ total, readGroups (total, 0) ps = some (total + 1000 ^ i * Nat.ofDigits 1000 gs, 0) := by
  induction gs generalizing i with
  | nil => exact ⟨[], rfl, fun total => rfl⟩
  | cons g gs ih =>
    rw [List.length_cons] at hlen
    obtain ⟨higher, hhigher, hread⟩ := @ih (i + 1) (by omega) (by omega) fun g hg =>
      hgs g (List.mem_cons_of_mem _ hg)
    have hvalue : ∀ total, total + 1000 ^ (i + 1) * Nat.ofDigits 1000 gs + g * 1000 ^ i =
        total + 1000 ^ i * Nat.ofDigits 1000 (g :: gs) := by
      intro total
      rw [Nat.ofDigits_cons]
      ring
    unfold groupWords
    rw [hhigher]
    by_cases hg : g = 0
    · refine ⟨higher, if_pos hg, fun total => ?_⟩
      rw [hread, ← hvalue, hg, Nat.zero_mul]
      rfl
    · obtain ⟨words, hwords, hgroup⟩ := belowThousand_read (hgs g List.mem_cons_self)
      obtain ⟨scale, hscale, hname⟩ := Entry.names (scales_entry i (by omega) hi)
      refine ⟨higher ++ [words ++ ' ' :: scale], ?_, fun total => ?_⟩
      · show (if g = 0 then _ else _) = _
        rw [if_neg hg, hwords, hscale]
        exact if_neg (by omega)
      · have hpart : readFrom (total + 1000 ^ (i + 1) * Nat.ofDigits 1000 gs, 0)
          (words ++ ' ' :: scale) =
            some (total + 1000 ^ (i + 1) * Nat.ofDigits 1000 gs + g * 1000 ^ i, 0) :=
          readText_join (hgroup _) hname.read
        rw [← hvalue]
        exact readParts_snoc (hread total) hpart

/-- The lowest group has no scale word: its value is left as the sum. -/
theorem groupWords_lowest (several : Bool) {g : Nat} {gs : List Nat} (hlen : gs.length ≤ 6)
    (hgs : ∀ x ∈ g :: gs, x < 1000) : ∃ ps, groupWords several 0 (g :: gs) = some ps ∧
      readGroups (0, 0) ps = some (1000 * Nat.ofDigits 1000 gs, g) := by
  obtain ⟨higher, hhigher, hread⟩ := @groupWords_read several 1 gs (Nat.le_refl 1) (by omega)
    fun x hx => hgs x (List.mem_cons_of_mem _ hx)
  have htotal : readGroups (0, 0) higher = some (1000 * Nat.ofDigits 1000 gs, 0) := by
    rw [hread 0, Nat.pow_one, Nat.zero_add]
  unfold groupWords
  rw [hhigher]
  by_cases hg : g = 0
  · refine ⟨higher, if_pos hg, ?_⟩
    rw [htotal, hg]
  · obtain ⟨words, hwords, hgroup⟩ := belowThousand_read (hgs g List.mem_cons_self)
    refine ⟨higher ++ [if g < 100 ∧ several = true then "and".toList ++ ' ' :: words else words],
      ?_, ?_⟩
    · show (if g = 0 then _ else _) = _
      rw [if_neg hg, hwords]
      rfl
    · refine readParts_snoc htotal ?_
      split
      · exact readText_join and_names.read (hgroup _)
      · exact hgroup _

/-! ## Every number -/

/-- The words of a number are found without a panic, and say it. -/
theorem cardinal_read (n : UInt64) : ∃ w, cardinal n = some w ∧ readNumber w = some n.toNat := by
  unfold cardinal
  by_cases hn : n = 0
  · rw [hn]
    exact ⟨"zero".toList, rfl, by decide⟩
  have hpos : n.toNat ≠ 0 := fun h => hn (UInt64.toNat_inj.mp h)
  have hlt : n.toNat < 1000 ^ 7 := Nat.lt_of_lt_of_le n.toNat_lt (by decide)
  have hvalue : Nat.ofDigits 1000 (groups 64 n.toNat) = n.toNat :=
    groups_value (Nat.lt_of_lt_of_le hlt (Nat.pow_le_pow_right (by omega) (by omega)))
  have hlen : (groups 64 n.toNat).length ≤ 7 := groups_length hlt
  have hgs : ∀ g ∈ groups 64 n.toNat, g < 1000 := fun g hg => groups_lt hg
  rw [if_neg hn]
  dsimp only
  cases hgroups : groups 64 n.toNat with
  | nil =>
    rw [hgroups] at hvalue
    exact absurd hvalue.symm hpos
  | cons g gs =>
    rw [hgroups] at hvalue hlen hgs
    rw [List.length_cons] at hlen
    have hsum : 1000 * Nat.ofDigits 1000 gs + g = n.toNat := by
      rw [← hvalue, Nat.ofDigits_cons, Nat.add_comm]
    obtain ⟨ps, hps, hread⟩ := groupWords_lowest (1 < (g :: gs).length) (by omega) hgs
    have hne : ps ≠ [] := by
      rintro rfl
      -- nothing is read in no words, and the number is not zero
      have hzero : (0, 0) = (1000 * Nat.ofDigits 1000 gs, g) := Option.some.inj hread
      obtain ⟨htotal, hg⟩ := Prod.mk.inj hzero
      omega
    refine ⟨Text.join [' '] ps, by rw [hps]; rfl, ?_⟩
    have htext : readFrom (0, 0) (Text.join [' '] ps) = some (1000 * Nat.ofDigits 1000 gs, g) :=
      (readText_intercalate hne).trans hread
    unfold readNumber
    rw [htext, Option.map_some, hsum]

theorem cardinal_some (n : UInt64) : ∃ w, cardinal n = some w := by
  obtain ⟨w, hw, -⟩ := cardinal_read n
  exact ⟨w, hw⟩

theorem cardinal_injective : Function.Injective cardinal := by
  intro n m h
  obtain ⟨w, hw, hn⟩ := cardinal_read n
  obtain ⟨w', hw', hm⟩ := cardinal_read m
  rw [hw, hw'] at h
  cases h
  rw [hn] at hm
  exact UInt64.toNat_inj.mp (Option.some.inj hm)

/-- Number words are unambiguous: a reader finds every `u64` in its words, so no two have the same
words; and no index leaves its table, for every number below a hundred, below a thousand, and of
64 bits. -/
theorem cardinal_unambiguous :
    (∀ n : UInt64, ∃ w, cardinal n = some w ∧ readNumber w = some n.toNat) ∧
      Function.Injective cardinal ∧ (∀ n < 1000, ∃ w, belowThousand n = some w) ∧
      ∀ n < 100, ∃ w, belowHundred n = some w := by
  refine ⟨cardinal_read, cardinal_injective, fun n hn => ?_, fun n hn => ?_⟩
  · obtain ⟨w, hw, -⟩ := belowThousand_read hn
    exact ⟨w, hw⟩
  · obtain ⟨w, hw, -⟩ := belowHundred_read hn
    exact ⟨w, hw⟩

example : (cardinal 1000024).bind readNumber = some 1000024 := by decide

/-! ## Years and ordinals -/

theorem yearEnd_some {lo : Nat} (h : lo < 100) : ∃ w, yearEnd lo = some w := by
  unfold yearEnd
  split
  · exact ⟨_, rfl⟩
  · split
    · obtain ⟨w, hw, -⟩ := Entry.names (ones_entry lo (by omega))
      exact ⟨_, by rw [hw]; rfl⟩
    · obtain ⟨w, hw, -⟩ := belowHundred_read h
      exact ⟨w, hw⟩

/-- The halves of a year that is said in two are below a hundred. -/
theorem year_some (y : UInt64) : ∃ w, year y = some w := by
  unfold year
  split
  · exact cardinal_some y
  next hrange =>
    split
    · exact cardinal_some y
    · have hle : y.toNat ≤ 2099 := UInt64.le_iff_toNat_le.mp (not_not.mp hrange).2
      have hhi : (y / 100).toNat < 100 := by
        rw [UInt64.toNat_div]
        show y.toNat / 100 < 100
        omega
      have hlo : (y % 100).toNat < 100 := by
        rw [UInt64.toNat_mod]
        exact Nat.mod_lt _ (by decide)
      obtain ⟨lo, hlo⟩ := yearEnd_some hlo
      obtain ⟨hi, hhi, -⟩ := belowHundred_read hhi
      exact ⟨hi ++ ' ' :: lo, by rw [hlo, hhi]; rfl⟩

/-- The stem in front of a last "y" is a slice of whole characters. -/
theorem ordinal_some (n : UInt64) : ∃ w, ordinal n = some w := by
  obtain ⟨words, hwords⟩ := cardinal_some n
  unfold ordinal
  rw [hwords]
  rw [Option.bind_eq_bind, Option.bind_some]
  generalize lastWord words = p
  obtain ⟨front, last⟩ := p
  dsimp only
  split
  · exact ⟨_, rfl⟩
  · split
    next hlast =>
      obtain ⟨stem, rfl⟩ := List.getLast?_eq_some_iff.mp hlast
      have hlen : bytes (stem ++ ['y']) - 1 = bytes stem := by
        rw [bytes_append]
        rfl
      exact ⟨front ++ (stem ++ "ieth".toList), by rw [hlen, takeBytes_append]; rfl⟩
    · exact ⟨_, rfl⟩

end Sonara.Pronounce
