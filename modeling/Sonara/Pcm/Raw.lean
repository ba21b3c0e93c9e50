import Sonara.Lib.Chunks

/-!
# Raw PCM as it comes (`streaming.rs`, `Wire::Raw`)

A body of raw 16-bit samples is read as it arrives, in the pieces the network makes of it.
`decode` gives the samples of a piece; half a sample is carried to the next one. The first
piece with audio is waited for by `firstAudio`, which hands what it carries to `Rest`.

The invariant: the samples so far are those of all bytes received, and the carry is what is
left of them (`Lib.Chunks.whole_rest_append`).
-/

namespace Sonara.Pcm

abbrev Byte := BitVec 8

/-- An `i16`. -/
abbrev Sample := BitVec 16

/-- `i16::from_le_bytes`. -/
def sampleOfLe (b : List Byte) : Sample := b.getD 1 0 ++ b.getD 0 0

/-- The 16-bit little-endian samples of `b`; an odd byte at the end is dropped. -/
def samples16 (b : List Byte) : List Sample := (Lib.Chunks.whole 2 b).map sampleOfLe

/-- The audio of one piece behind what was carried, and what is carried on. -/
def decode (carry b : List Byte) : List Sample × List Byte :=
  let carry := carry ++ b
  let samples := samples16 carry
  (samples, carry.drop (samples.length * 2))

/-- What a wait for the request thread gives: bytes, nothing yet, an event of another wire,
the end of the answer, or a failure. `late` stands for what is looked at before each wait:
the chunk was cancelled, or its time is over. When the events run out, the thread is gone. -/
inductive Recv where
  | bytes (b : List Byte)
  | idle
  | data
  | ended
  | failed
  | refused
  | late
  deriving DecidableEq, Repr

/-- What the wait for the first audio saw. -/
inductive First where
  | audio (samples : List Sample) (rx : List Recv) (carry : List Byte)
  | failed
  deriving DecidableEq, Repr

/-- Wait for the first audio. -/
def firstAudio (carry : List Byte) : List Recv → First
  | .bytes b :: rx =>
    let p := decode carry b
    if p.1 ≠ [] then .audio p.1 rx p.2 else firstAudio p.2 rx
  | .idle :: rx | .data :: rx => firstAudio carry rx
  | _ => .failed

/-- The rest of a streamed chunk, after its first audio. -/
structure Rest where
  first : Option (List Sample)
  rx : List Recv
  carry : List Byte
  done : Bool := false
  deriving DecidableEq, Repr

/-- Wait for the next audio: it, what is still to come and what is carried on. None comes
when the answer ends, or is cut. -/
def nextAudio (carry : List Byte) : List Recv → Option (List Sample × List Recv × List Byte)
  | .bytes b :: rx =>
    let p := decode carry b
    if p.1 ≠ [] then some (p.1, rx, p.2) else nextAudio p.2 rx
  | .idle :: rx | .data :: rx => nextAudio carry rx
  | _ => none

/-- The next piece of the raw stream. -/
def Rest.next (s : Rest) : Option (List Sample) × Rest :=
  if s.done then (none, s)
  else match s.first with
    | some pcm => (some pcm, { s with first := none })
    | none =>
      match nextAudio s.carry s.rx with
      | some (pcm, rx, carry) => (some pcm, { s with rx := rx, carry := carry })
      | none => (none, { s with rx := [], done := true })

/-- What `n` calls of `next` give, up to the end. -/
def Rest.take : Nat → Rest → List Sample
  | 0, _ => []
  | n + 1, s =>
    match s.next with
    | (some pcm, s) => pcm ++ Rest.take n s
    | (none, _) => []

/-- The samples of an answer: none before its first audio, then what `n` calls give. -/
def played (n : Nat) (rx : List Recv) : List Sample :=
  match firstAudio [] rx with
  | .audio pcm rx carry => Rest.take n { first := some pcm, rx := rx, carry := carry }
  | .failed => []

/-- The bytes of the body, up to where it ends. -/
def body : List Recv → List Byte
  | .bytes b :: rx => b ++ body rx
  | .idle :: rx | .data :: rx => body rx
  | _ => []

/-! ## One piece -/

theorem samples16_decode (carry b r : List Byte) :
    samples16 (carry ++ b ++ r) = (decode carry b).1 ++ samples16 ((decode carry b).2 ++ r) := by
  have hgo := Lib.Chunks.whole_rest_append (n := 2) (by decide) (carry ++ b) r
  have hcarry : (decode carry b).2 = Lib.Chunks.rest 2 (carry ++ b) := by
    unfold decode samples16 Lib.Chunks.rest
    dsimp only
    rw [List.length_map, Lib.Chunks.whole_length, Nat.mul_comm]
  rw [hcarry]
  unfold samples16
  rw [hgo, List.map_append]
  rfl

/-- Nothing is left to decode in what is carried. -/
theorem decode_carry (carry b : List Byte) : samples16 (decode carry b).2 = [] := by
  have hsplit := samples16_decode carry b []
  rw [List.append_nil, List.append_nil] at hsplit
  have hself : samples16 (carry ++ b) = (decode carry b).1 := rfl
  rw [hself] at hsplit
  exact List.append_right_eq_self.mp hsplit.symm

/-! ## The whole answer -/

/-- The next audio is the next of the body, and the wait for it goes on behind it. -/
theorem nextAudio_some {carry : List Byte} {rx : List Recv}
    {p : List Sample × List Recv × List Byte}
    (h : nextAudio carry rx = some p) : samples16 (carry ++ body rx) = p.1 ++ samples16
    (p.2.2 ++ body p.2.1) ∧
      samples16 p.2.2 = [] ∧ p.2.1.length < rx.length := by
  induction rx generalizing carry with
  | nil => cases h
  | cons e rx ih =>
    cases e with
    | bytes b =>
      unfold nextAudio at h
      dsimp only at h
      have hbody : carry ++ body (.bytes b :: rx) = carry ++ b ++ body rx :=
        (List.append_assoc _ _ _).symm
      rw [hbody, samples16_decode]
      split at h
      · obtain rfl := Option.some.inj h
        exact ⟨rfl, decode_carry carry b, Nat.lt_succ_self _⟩
      next hnone =>
        obtain ⟨hnext, hcarry, hlen⟩ := ih h
        rw [not_not.mp hnone, hnext]
        exact ⟨rfl, hcarry, Nat.lt_succ_of_lt hlen⟩
    | idle =>
      obtain ⟨hnext, hcarry, hlen⟩ := ih h
      exact ⟨hnext, hcarry, Nat.lt_succ_of_lt hlen⟩
    | data =>
      obtain ⟨hnext, hcarry, hlen⟩ := ih h
      exact ⟨hnext, hcarry, Nat.lt_succ_of_lt hlen⟩
    | ended => cases h
    | failed => cases h
    | refused => cases h
    | late => cases h

/-- When no audio comes, the bytes hold no sample. -/
theorem nextAudio_none {carry : List Byte} {rx : List Recv} (hcarry : samples16 carry = [])
    (h : nextAudio carry rx = none) : samples16 (carry ++ body rx) = [] := by
  have hstop : samples16 (carry ++ []) = [] := by rwa [List.append_nil]
  induction rx generalizing carry with
  | nil => exact hstop
  | cons e rx ih =>
    cases e with
    | bytes b =>
      unfold nextAudio at h
      dsimp only at h
      have hbody : carry ++ body (.bytes b :: rx) = carry ++ b ++ body rx :=
        (List.append_assoc _ _ _).symm
      rw [hbody, samples16_decode]
      split at h
      · cases h
      next hnone =>
        have hleft := decode_carry carry b
        rw [not_not.mp hnone, ih hleft h (by rwa [List.append_nil]), List.append_nil]
    | idle => exact ih hcarry h hstop
    | data => exact ih hcarry h hstop
    | ended => exact hstop
    | failed => exact hstop
    | refused => exact hstop
    | late => exact hstop

/-- The wait for the first audio is a wait for the next. -/
theorem firstAudio_eq (carry : List Byte) (rx : List Recv) :
    firstAudio carry rx = (nextAudio carry rx).elim .failed fun p => .audio p.1 p.2.1 p.2.2 := by
  induction rx generalizing carry with
  | nil => rfl
  | cons e rx ih =>
    cases e with
    | bytes b =>
      unfold firstAudio nextAudio
      dsimp only
      split
      · rfl
      · exact ih _
    | idle => exact ih carry
    | data => exact ih carry
    | _ => rfl

/-! ## The whole answer -/

/-- After the first audio, the rest gives what is left of the body. -/
theorem take_rest {carry : List Byte} {rx : List Recv} (hcarry : samples16 carry = []) {n : Nat}
    (hn : rx.length < n) :
    Rest.take n { first := none, rx := rx, carry := carry } = samples16 (carry ++ body rx) := by
  induction n generalizing carry rx with
  | zero => exact absurd hn (Nat.not_lt_zero _)
  | succ n ih =>
    unfold Rest.take Rest.next
    dsimp only
    cases h : nextAudio carry rx with
    | none => exact (nextAudio_none hcarry h).symm
    | some p =>
      obtain ⟨hnext, hleft, hlen⟩ := nextAudio_some h
      rw [hnext]
      exact congrArg (p.1 ++ ·) (ih hleft (Nat.lt_of_lt_of_le hlen (Nat.le_of_lt_succ hn)))

/-- **The samples do not depend on how the body is cut:** whatever comes in between, they are
the 16-bit samples of all bytes received up to the end. -/
theorem played_samples (rx : List Recv) (k : Nat) :
    played (rx.length + 2 + k) rx = samples16 (body rx) := by
  have hnone : samples16 [] = [] := rfl
  unfold played
  rw [firstAudio_eq]
  cases h : nextAudio [] rx with
  | none => exact (nextAudio_none hnone h).symm
  | some p =>
    obtain ⟨hnext, hleft, hlen⟩ := nextAudio_some h
    have hmany : p.2.1.length < rx.length + 1 + k := by omega
    have hrest := take_rest hleft hmany
    have hcount : rx.length + 2 + k = rx.length + 1 + k + 1 := by omega
    rw [List.nil_append] at hnext
    rw [hnext, hcount, Option.elim_some]
    exact congrArg (p.1 ++ ·) hrest

theorem body_pieces (pieces : List (List Byte)) (rx : List Recv) :
    body (pieces.map Recv.bytes ++ rx) = pieces.flatten ++ body rx := by
  induction pieces with
  | nil => rfl
  | cons b pieces ih =>
    rw [List.flatten_cons, List.append_assoc, ← ih]
    rfl

/-- **Every way to cut the body into pieces gives the samples of the body**, each once and in
order, an odd byte at the end dropped. -/
theorem pieces_played (b : List Byte) (pieces : List (List Byte)) (k : Nat)
    (hcut : pieces.flatten = b) :
    played (pieces.length + 3 + k) (pieces.map Recv.bytes ++ [.ended]) = samples16 b ∧
    (samples16 b).length = b.length / 2 ∧
    ∀ i, i < b.length / 2 → (samples16 b)[i]? = some
    (b.getD (2 * i + 1) 0 ++ b.getD (2 * i) 0) := by
  have hall := played_samples (pieces.map Recv.bytes ++ [.ended]) k
  rw [body_pieces, List.length_append, List.length_map, hcut] at hall
  have hended : body [.ended] = [] := rfl
  rw [hended, List.append_nil] at hall
  refine ⟨hall, ?_, fun i hi => ?_⟩
  · unfold samples16
    rw [List.length_map, Lib.Chunks.whole_length]
  · unfold samples16
    rw [List.getElem?_map, Lib.Chunks.whole_getElem? hi]
    unfold sampleOfLe
    simp [List.getD, List.getElem?_drop]

/-- A body cut inside both of its samples. -/
theorem pieces_played_odd :
    played 6 (([[1], [2, 3], [4, 5]] : List (List Byte)).map Recv.bytes ++ [.ended]) =
    [0x201, 0x403] := by
  have hcut := (pieces_played [1, 2, 3, 4, 5] [[1], [2, 3], [4, 5]] 0 rfl).1
  exact hcut.trans (by decide)

end Sonara.Pcm
