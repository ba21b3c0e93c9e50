import Mathlib.Algebra.GroupWithZero.Nat
import Sonara.Lib.Except
import Sonara.Pcm.Raw

/-!
# The WAV container (`wav.rs`)

`decode` walks the chunks of a RIFF file: the format comes from a `fmt ` chunk, and the first
`data` chunk ends the walk. Sizes are what the file declares, so they are clamped to the bytes
present. A slice out of bounds would be a panic and too many rounds no result: both are `none`
here, and `decode_reads` shows that neither happens.

A `usize` is unbounded: a slice has fewer bytes than the sums of `decode` could overflow by.
The conversion of a float sample is a parameter (`Floats`), as nothing here looks at its value.
-/

namespace Sonara.Pcm

/-- `from_float` of an `f32` and of an `f64`, from their bits. -/
structure Floats where
  ofF32 : BitVec 32 → Sample
  ofF64 : BitVec 64 → Sample

/-- What cannot be decoded. -/
inductive WavError where
  | notRiff
  | fmtTooShort
  | unsupportedTag (tag : BitVec 16)
  | zeroFormat
  | unsupportedBits (bits : BitVec 16)
  | dataBeforeFmt
  | noData
  deriving DecidableEq, Repr

/-- A hexadecimal digit, in small letters. -/
def hexDigit (n : Nat) : Char := "0123456789abcdef".toList.getD n '0'

/-- `{:#06x}`. -/
def hex16 (n : BitVec 16) : String :=
  String.ofList ('0' :: 'x' :: ([12, 8, 4, 0].map fun k => hexDigit (n.toNat / 2 ^ k % 16)))

def WavError.message : WavError → String
  | .notRiff => "not a RIFF/WAVE file"
  | .fmtTooShort => "fmt chunk too short"
  | .unsupportedTag tag => "unsupported format tag " ++ hex16 tag
  | .zeroFormat => "zero channels or sample rate"
  | .unsupportedBits bits => "unsupported sample size " ++ toString bits.toNat ++ " bits"
  | .dataBeforeFmt => "data chunk before fmt chunk"
  | .noData => "no data chunk"

/-- Decoded audio. -/
structure PcmChunk where
  samples : List Sample
  sampleRate : BitVec 32
  channels : BitVec 16
  deriving DecidableEq, Repr

structure Format where
  channels : BitVec 16
  sampleRate : BitVec 32
  bits : BitVec 16
  float : Bool
  deriving DecidableEq, Repr

def formatPcm : BitVec 16 := 1

def formatFloat : BitVec 16 := 3

def formatExtensible : BitVec 16 := 0xFFFE

/-- `b.get(from..to)`. -/
def slice? (b : List Byte) (start stop : Nat) : Option (List Byte) :=
  if start ≤ stop ∧ stop ≤ b.length then some ((b.drop start).take (stop - start)) else none

/-- `u32::from_le_bytes`. -/
def wordOfLe (b : List Byte) : BitVec 32 := b.getD 3 0 ++ b.getD 2 0 ++ b.getD 1 0 ++ b.getD 0 0

def u16At (b : List Byte) (start : Nat) : Option (BitVec 16) :=
  (slice? b start (start + 2)).map sampleOfLe

def u32At (b : List Byte) (start : Nat) : Option (BitVec 32) :=
  (slice? b start (start + 4)).map wordOfLe

/-- Whether the samples of `kind` are floats. -/
def floatOf (tag kind : BitVec 16) : Except WavError Bool :=
  if kind = formatPcm then .ok false
  else if kind = formatFloat then .ok true
  else .error (.unsupportedTag tag)

/-- The sample sizes that are read. -/
def Supported (float : Bool) (bits : BitVec 16) : Prop :=
  if float then bits = 32 ∨ bits = 64 else bits = 8 ∨ bits = 16 ∨ bits = 24 ∨ bits = 32

instance (float : Bool) (bits : BitVec 16) : Decidable (Supported float bits) :=
  inferInstanceAs (Decidable (if float then bits = 32 ∨ bits = 64 else bits = 8 ∨ bits = 16 ∨
    bits = 24 ∨ bits = 32))

/-- The format that a `fmt ` chunk gives. -/
def parseFmt (body : List Byte) : Except WavError Format := do
  let tag ← (u16At body 0).elim (.error .fmtTooShort) .ok
  let channels ← (u16At body 2).elim (.error .fmtTooShort) .ok
  let sampleRate ← (u32At body 4).elim (.error .fmtTooShort) .ok
  let bits ← (u16At body 14).elim (.error .fmtTooShort) .ok
  -- The subformat starts with the format tag.
  let kind := if tag = formatExtensible then (u16At body 24).getD 0 else tag
  let float ← floatOf tag kind
  if channels = 0 ∨ sampleRate = 0 then .error .zeroFormat
  else if Supported float bits then
    .ok { channels := channels, sampleRate := sampleRate, bits := bits, float := float }
  else .error (.unsupportedBits bits)

/-- The samples of `body`; a trailing partial sample is dropped. -/
def toPcm (fl : Floats) (f : Format) (body : List Byte) : PcmChunk where
  samples :=
    if f.float then
      if f.bits = 32 then (Lib.Chunks.whole 4 body).map fun q => fl.ofF32 (wordOfLe q)
      else (Lib.Chunks.whole 8 body).map fun e => fl.ofF64 (wordOfLe (e.drop 4) ++ wordOfLe e)
    else if f.bits = 8 then body.map fun s => (s.setWidth 16 - 128 : Sample) <<< 8
    else if f.bits = 16 then samples16 body
    else if f.bits = 24 then (Lib.Chunks.whole 3 body).map fun t => sampleOfLe (t.drop 1)
    else (Lib.Chunks.whole 4 body).map fun q => sampleOfLe (q.drop 2)
  sampleRate := f.sampleRate
  channels := f.channels

def ascii (s : String) : List Byte := s.toList.map fun c => BitVec.ofNat 8 c.toNat

/-- The walk over the chunks from offset `pos`. -/
def walk (fl : Floats) (bytes : List Byte) :
    Nat → Nat → Option Format → Option (Except WavError PcmChunk)
  | 0, _, _ => none
  | n + 1, pos, format =>
    if pos + 8 ≤ bytes.length then do
      let id ← slice? bytes pos (pos + 4)
      let size := ((u32At bytes (pos + 4)).getD 0).toNat
      let start := pos + 8
      let body ← slice? bytes start (min (start + size) bytes.length)
      -- Chunks are word aligned: an odd size is followed by a pad byte.
      let next := start + size + size % 2
      if id = ascii "fmt " then
        match parseFmt body with
        | .error e => some (.error e)
        | .ok f => walk fl bytes n next (some f)
      else if id = ascii "data" then
        match format with
        | some f => some (.ok (toPcm fl f body))
        | none => some (.error .dataBeforeFmt)
      else walk fl bytes n next format
    else some (.error .noData)

/-- The file starts as a RIFF/WAVE file does. -/
def IsRiff (bytes : List Byte) : Prop :=
  slice? bytes 0 4 = some (ascii "RIFF") ∧ slice? bytes 8 12 = some (ascii "WAVE")

instance : DecidablePred IsRiff := fun _ => inferInstanceAs (Decidable (_ ∧ _))

/-- Decode a whole WAV file held in memory. -/
def decodeWav (fl : Floats) (bytes : List Byte) : Option (Except WavError PcmChunk) :=
  if IsRiff bytes then walk fl bytes (bytes.length + 1) 12 none else some (.error .notRiff)

def le16 (n : BitVec 16) : List Byte := [n.extractLsb' 0 8, n.extractLsb' 8 8]

def le32 (n : BitVec 32) : List Byte :=
  [n.extractLsb' 0 8, n.extractLsb' 8 8, n.extractLsb' 16 8, n.extractLsb' 24 8]

/-- Encode 16-bit PCM as a canonical WAV file. -/
def encodeWav (pcm : PcmChunk) : List Byte :=
  let dataLen : BitVec 32 := BitVec.ofNat 32 (pcm.samples.length * 2)
  let blockAlign : BitVec 16 := pcm.channels * 2
  ascii "RIFF" ++ le32 (36 + dataLen) ++ ascii "WAVEfmt " ++ le32 16 ++ le16 formatPcm ++
    le16 pcm.channels ++
    le32 pcm.sampleRate ++ le32 (pcm.sampleRate * blockAlign.setWidth 32) ++
      le16 blockAlign ++ le16 16 ++
    ascii "data" ++ le32 dataLen ++ pcm.samples.flatMap le16

/-! ## The chunks of a file -/

/-- A chunk: its id and its bytes, clamped to what is there. -/
abbrev RiffChunk := List Byte × List Byte

/-- The chunks of `rest`, at most `n`. -/
def chunksFrom : Nat → List Byte → List RiffChunk
  | 0, _ => []
  | n + 1, rest =>
    if rest.length < 8 then []
    else
      let size := (wordOfLe ((rest.drop 4).take 4)).toNat
      (rest.take 4, (rest.drop 8).take size) :: chunksFrom n (rest.drop (8 + size + size % 2))

/-- The chunks of a file. -/
def chunksOf (bytes : List Byte) : List RiffChunk := chunksFrom (bytes.length + 1) (bytes.drop 12)

/-- The first data chunk, read in the format of the fmt chunks before it. -/
def judge (fl : Floats) (format : Option Format) : List RiffChunk → Except WavError PcmChunk
  | [] => .error .noData
  | c :: cs =>
    if c.1 = ascii "fmt " then
      match parseFmt c.2 with
      | .error e => .error e
      | .ok f => judge fl (some f) cs
    else if c.1 = ascii "data" then
      match format with
      | some f => .ok (toPcm fl f c.2)
      | none => .error .dataBeforeFmt
    else judge fl format cs

variable {fl : Floats} {bytes rest : List Byte} {n pos : Nat} {format : Option Format}

theorem slice?_eq {start stop : Nat} (h : start ≤ stop) (h' : stop ≤ bytes.length) :
    slice? bytes start stop = some ((bytes.drop start).take (stop - start)) := if_pos ⟨h, h'⟩

/-- The body of a chunk is clamped to the bytes that are there. -/
theorem slice?_clamped {start : Nat} (h : start ≤ bytes.length) (size : Nat) :
    slice? bytes start (min (start + size) bytes.length) = some ((bytes.drop start).take size) := by
  rw [slice?_eq (by omega) (by omega)]
  by_cases hsize : start + size ≤ bytes.length
  · rw [Nat.min_eq_left hsize, Nat.add_sub_cancel_left]
  · rw [Nat.min_eq_right (by omega), List.take_of_length_le (by rw [List.length_drop]),
      List.take_of_length_le (by rw [List.length_drop]; omega)]

/-- **The walk reads the chunks:** it never slices out of bounds, and it ends. -/
theorem walk_reads (hn : 0 < n) (h : bytes.length < pos + n) :
    walk fl bytes n pos format = some (judge fl format (chunksFrom n (bytes.drop pos))) := by
  induction n generalizing pos format with
  | zero => exact absurd hn (Nat.lt_irrefl 0)
  | succ n ih =>
    unfold walk chunksFrom
    by_cases hmore : pos + 8 ≤ bytes.length
    · have hlong : ¬(bytes.drop pos).length < 8 := by
        rw [List.length_drop]
        omega
      rw [if_pos hmore, if_neg hlong]
      have hid : slice? bytes pos (pos + 4) = some ((bytes.drop pos).take 4) := by
        rw [slice?_eq (by omega) (by omega), Nat.add_sub_cancel_left]
      have hsize : u32At bytes (pos + 4) = some (wordOfLe (((bytes.drop pos).drop 4).take 4)) := by
        unfold u32At
        rw [slice?_eq (by omega) (by omega), List.drop_drop, Nat.add_sub_cancel_left]
        rfl
      rw [hid, hsize]
      generalize hs : (wordOfLe (((bytes.drop pos).drop 4).take 4)).toNat = size
      have hbody := slice?_clamped (by omega : pos + 8 ≤ bytes.length) size
      have hrest : (bytes.drop pos).drop (8 + size + size % 2) = bytes.drop
          (pos + 8 + size + size % 2) := by
        rw [List.drop_drop]
        congr 1
        omega
      have hgo : ∀ f, walk fl bytes n (pos + 8 + size + size % 2) f =
          some (judge fl f (chunksFrom n (bytes.drop (pos + 8 + size + size % 2)))) :=
        fun f => ih (by omega) (by omega)
      dsimp only [Option.bind_eq_bind, Option.bind_some, Option.getD_some]
      rw [hs, hbody, hrest, List.drop_drop]
      dsimp only [Option.bind_some]
      unfold judge
      dsimp only
      split
      · cases parseFmt ((bytes.drop (pos + 8)).take size) with
        | error e => rfl
        | ok f => exact hgo (some f)
      · split
        · cases format with
          | none => rfl
          | some f => rfl
        · exact hgo format
    · have hshort : (bytes.drop pos).length < 8 := by
        rw [List.length_drop]
        omega
      rw [if_neg hmore, if_pos hshort]
      rfl

theorem decode_reads (fl : Floats) (bytes : List Byte) : decodeWav fl bytes =
    some (if IsRiff bytes then judge fl none (chunksOf bytes) else .error .notRiff) := by
  unfold decodeWav
  split
  · exact walk_reads (Nat.succ_pos _) (by omega)
  · rfl

/-- More rounds than bytes find no more chunks. -/
theorem chunksFrom_enough {m : Nat} (hn : rest.length < n) (hm : rest.length < m) :
    chunksFrom n rest = chunksFrom m rest := by
  induction n generalizing m rest with
  | zero => exact absurd hn (Nat.not_lt_zero _)
  | succ n ih =>
    obtain ⟨m, rfl⟩ := Nat.exists_eq_succ_of_ne_zero
      (Nat.ne_of_gt (Nat.lt_of_le_of_lt (Nat.zero_le _) hm))
    unfold chunksFrom
    split
    · rfl
    · dsimp only
      refine congrArg (_ :: ·) (ih ?_ ?_)
      · rw [List.length_drop]
        omega
      · rw [List.length_drop]
        omega

/-! ## What the result depends on -/

/-- The fmt chunks before the first data chunk. -/
def fmtsOf (cs : List RiffChunk) : List (List Byte) :=
  ((cs.takeWhile (·.1 ≠ ascii "data")).filter (·.1 = ascii "fmt ")).map Prod.snd

/-- The bytes of the first data chunk. -/
def dataOf (cs : List RiffChunk) : Option (List Byte) :=
  (cs.find? (·.1 = ascii "data")).map Prod.snd

/-- The format after these fmt chunks, the first that is no format being an error. -/
def formatOf (format : Option Format) (fmts : List (List Byte)) : Except WavError (Option Format) :=
  fmts.foldlM (fun _ b => some <$> parseFmt b) format

/-- The data in that format. -/
def verdict (fl : Floats) (format : Option Format) (fmts : List (List Byte))
    (data : Option (List Byte)) :
    Except WavError PcmChunk := do
  match ← formatOf format fmts, data with
  | _, none => .error .noData
  | none, some _ => .error .dataBeforeFmt
  | some f, some data => .ok (toPcm fl f data)

/-- Judging the chunks one by one is judging their formats and their data. -/
theorem judge_verdict (cs : List RiffChunk) :
    judge fl format cs = verdict fl format (fmtsOf cs) (dataOf cs) := by
  have hne : ascii "fmt " ≠ ascii "data" := by decide
  induction cs generalizing format with
  | nil => rfl
  | cons c cs ih =>
    unfold judge
    by_cases hfmt : c.1 = ascii "fmt "
    · have hfmts : fmtsOf (c :: cs) = c.2 :: fmtsOf cs := by
        unfold fmtsOf
        rw [List.takeWhile_cons_of_pos (by simp [hfmt, hne]),
          List.filter_cons_of_pos (by simp [hfmt])]
        rfl
      have hdata : dataOf (c :: cs) = dataOf cs := by
        unfold dataOf
        rw [List.find?_cons_of_neg (by simp [hfmt, hne])]
      rw [if_pos hfmt, hfmts, hdata]
      cases hparse : parseFmt c.2 with
      | error e =>
        unfold verdict formatOf
        rw [List.foldlM_cons, hparse]
        rfl
      | ok f =>
        refine (@ih (some f)).trans ?_
        unfold verdict formatOf
        rw [List.foldlM_cons, hparse]
        rfl
    · rw [if_neg hfmt]
      by_cases hdata : c.1 = ascii "data"
      · have hfmts : fmtsOf (c :: cs) = [] := by
          unfold fmtsOf
          rw [List.takeWhile_cons_of_neg (by simp [hdata])]
          rfl
        have hfirst : dataOf (c :: cs) = some c.2 := by
          unfold dataOf
          rw [List.find?_cons_of_pos (by simp [hdata])]
          rfl
        rw [if_pos hdata, hfmts, hfirst]
        cases format with
        | none => rfl
        | some f => rfl
      · have hfmts : fmtsOf (c :: cs) = fmtsOf cs := by
          unfold fmtsOf
          rw [List.takeWhile_cons_of_pos (by simp [hdata]),
            List.filter_cons_of_neg (by simp [hfmt])]
        have hfirst : dataOf (c :: cs) = dataOf cs := by
          unfold dataOf
          rw [List.find?_cons_of_neg (by simp [hdata])]
        rw [if_neg hdata, hfmts, hfirst, ih]

/-- Only the last fmt chunk counts, if those before it are formats. -/
theorem formatOf_last {fmts : List (List Byte)} (h : ∀ b ∈ fmts, ∃ f, parseFmt b = .ok f)
    (b : List Byte) :
    formatOf format (fmts ++ [b]) = some <$> parseFmt b := by
  unfold formatOf
  induction fmts generalizing format with
  | nil =>
    rw [List.nil_append, List.foldlM_cons]
    cases parseFmt b with
    | error e => rfl
    | ok f => rfl
  | cons d fmts ih =>
    obtain ⟨f, hf⟩ := h d List.mem_cons_self
    rw [List.cons_append, List.foldlM_cons, hf]
    exact @ih (some f) fun c hc => h c (List.mem_cons_of_mem d hc)

/-- What the fmt chunks before the first that is no format are does not matter. -/
theorem formatOf_error {fmts more : List (List Byte)} (h : ∀ b ∈ fmts, ∃ f, parseFmt b = .ok f)
    {b : List Byte}
    {e : WavError} (hb : parseFmt b = .error e) :
    formatOf format (fmts ++ b :: more) = .error e := by
  unfold formatOf
  induction fmts generalizing format with
  | nil =>
    rw [List.nil_append, List.foldlM_cons, hb]
    rfl
  | cons d fmts ih =>
    obtain ⟨f, hf⟩ := h d List.mem_cons_self
    rw [List.cons_append, List.foldlM_cons, hf]
    exact @ih (some f) fun c hc => h c (List.mem_cons_of_mem d hc)

theorem verdict_last {fmts : List (List Byte)} (h : ∀ b ∈ fmts, ∃ f, parseFmt b = .ok f)
    (b : List Byte)
    (data : Option (List Byte)) : verdict fl format (fmts ++ [b]) data = verdict fl format
    [b] data := by
  unfold verdict
  rw [formatOf_last h b]
  exact congrArg (· >>= _) (@formatOf_last format []
    (fun _ hd => absurd hd List.not_mem_nil) b).symm

theorem verdict_error {fmts : List (List Byte)} (h : ∀ b ∈ fmts, ∃ f, parseFmt b = .ok f)
    {b : List Byte}
    {e : WavError} (hb : parseFmt b = .error e) (more : List (List Byte))
    (data : Option (List Byte)) :
    verdict fl format (fmts ++ b :: more) data = .error e := by
  unfold verdict
  rw [formatOf_error h hb]
  rfl

theorem decode_riff (fl : Floats) (h : IsRiff bytes) : decodeWav fl bytes =
    some (verdict fl none (fmtsOf (chunksOf bytes)) (dataOf (chunksOf bytes))) := by
  rw [decode_reads, if_pos h, judge_verdict]

/-- A format that was found is the last one. -/
theorem formatOf_some {fmts : List (List Byte)} {f : Format}
    (h : formatOf format fmts = .ok (some f)) :
    (fmts = [] ∧ format = some f) ∨ ∃ b ∈ fmts.getLast?, parseFmt b = .ok f := by
  unfold formatOf at h
  induction fmts generalizing format with
  | nil => exact .inl ⟨rfl, Except.ok.inj h⟩
  | cons d fmts ih =>
    rw [List.foldlM_cons] at h
    obtain ⟨g, hg, h⟩ := Lib.bind_ok h
    right
    rcases ih h with ⟨rfl, rfl⟩ | ⟨b, hb, hparse⟩
    · refine ⟨d, rfl, ?_⟩
      cases hd : parseFmt d with
      | error e =>
        rw [hd] at hg
        cases hg
      | ok f' =>
        rw [hd] at hg
        cases hg
        rfl
    · refine ⟨b, ?_, hparse⟩
      rw [List.getLast?_cons, Option.mem_def.mp hb]
      rfl

/-! ## Files that are written whole -/

/-- A chunk as it is written: word aligned, with its size. -/
structure Piece where
  id : List Byte
  body : List Byte
  pad : List Byte
  id_length : id.length = 4
  body_length : body.length < 2 ^ 32
  pad_length : pad.length = body.length % 2

def Piece.written (c : Piece) : List Byte :=
  c.id ++ le32 (BitVec.ofNat 32 c.body.length) ++ c.body ++ c.pad

def Piece.chunk (c : Piece) : RiffChunk := (c.id, c.body)

theorem sampleOfLe_le16 (x : BitVec 16) : sampleOfLe (le16 x) = x := by
  have hjoin : x.extractLsb' 8 8 ++ x.extractLsb' 0 8 = x.extractLsb' 0 16 :=
    BitVec.extractLsb'_append_extractLsb'_eq_extractLsb' rfl
  exact hjoin.trans BitVec.extractLsb'_eq_self

theorem wordOfLe_le32 (x : BitVec 32) : wordOfLe (le32 x) = x := by
  have hhigh : x.extractLsb' 24 8 ++ x.extractLsb' 16 8 = x.extractLsb' 16 16 :=
    BitVec.extractLsb'_append_extractLsb'_eq_extractLsb' rfl
  have hmiddle : x.extractLsb' 16 16 ++ x.extractLsb' 8 8 = x.extractLsb' 8 24 :=
    BitVec.extractLsb'_append_extractLsb'_eq_extractLsb' rfl
  have hlow : x.extractLsb' 8 24 ++ x.extractLsb' 0 8 = x.extractLsb' 0 32 :=
    BitVec.extractLsb'_append_extractLsb'_eq_extractLsb' rfl
  show x.extractLsb' 24 8 ++ x.extractLsb' 16 8 ++ x.extractLsb' 8 8 ++ x.extractLsb' 0 8 = x
  rw [hhigh, hmiddle, hlow]
  exact BitVec.extractLsb'_eq_self

/-- A chunk that is written whole is read. -/
theorem chunksFrom_piece (c : Piece) (n : Nat) (rest : List Byte) :
    chunksFrom (n + 1) (c.written ++ rest) = c.chunk :: chunksFrom n rest := by
  have hword : (le32 (BitVec.ofNat 32 c.body.length)).length = 4 := rfl
  have hid := c.id_length
  have hlen : c.written.length = 8 + c.body.length + c.body.length % 2 := by
    unfold Piece.written
    rw [List.length_append, List.length_append, List.length_append, hword, c.pad_length, hid]
  have hsize : (wordOfLe (((c.written ++ rest).drop 4).take 4)).toNat = c.body.length := by
    have hpart : ((c.written ++ rest).drop 4).take 4 = le32 (BitVec.ofNat 32 c.body.length) := by
      unfold Piece.written
      simp only [List.append_assoc]
      rw [← hid, List.drop_left, hid, ← hword, List.take_left]
    rw [hpart, wordOfLe_le32, BitVec.toNat_ofNat, Nat.mod_eq_of_lt c.body_length]
  have hlong : ¬(c.written ++ rest).length < 8 := by
    rw [List.length_append, hlen]
    omega
  refine (if_neg hlong).trans ?_
  dsimp only
  rw [hsize]
  refine congrArg₂ (· :: ·) (Prod.ext ?_ ?_) ?_
  · unfold Piece.written
    simp only [List.append_assoc]
    show List.take 4 _ = c.id
    rw [← hid, List.take_left]
  · show List.take c.body.length (List.drop 8 (c.written ++ rest)) = c.body
    have hdrop : (c.written ++ rest).drop 8 = c.body ++ (c.pad ++ rest) := by
      unfold Piece.written
      have hhead : (c.id ++ le32 (BitVec.ofNat 32 c.body.length)).length = 8 := by
        rw [List.length_append, hid, hword]
      rw [List.append_assoc, List.append_assoc, ← hhead, List.drop_left]
    rw [hdrop, List.take_left]
  · rw [← hlen, List.drop_left]

theorem chunksFrom_pieces (cs : List Piece) (n : Nat) (rest : List Byte) :
    chunksFrom (cs.length + n) (cs.flatMap Piece.written ++ rest) = cs.map Piece.chunk ++
    chunksFrom n rest := by
  induction cs with
  | nil => rw [List.length_nil, Nat.zero_add]; rfl
  | cons c cs ih =>
    have hcount : (c :: cs).length + n = cs.length + n + 1 := by
      rw [List.length_cons]
      omega
    rw [hcount, List.flatMap_cons, List.append_assoc, chunksFrom_piece, ih]
    rfl

/-- The chunks of a file that starts with whole ones. -/
theorem chunksOf_pieces {head : List Byte} (hhead : head.length = 12) (cs : List Piece)
    (rest : List Byte) :
    chunksOf (head ++ (cs.flatMap Piece.written ++ rest)) =
      cs.map Piece.chunk ++ chunksFrom (rest.length + 1) rest := by
  have hsmall : cs.length ≤ (cs.flatMap Piece.written).length := by
    induction cs with
    | nil => exact Nat.le_refl 0
    | cons c cs ih =>
      have hone : 4 ≤ c.written.length := by
        unfold Piece.written
        simp only [List.length_append, c.id_length]
        omega
      rw [List.flatMap_cons, List.length_append, List.length_cons]
      omega
  unfold chunksOf
  have hdrop : (head ++ (cs.flatMap Piece.written ++ rest)).drop 12 =
      cs.flatMap Piece.written ++ rest := by
    rw [← hhead, List.drop_left]
  rw [hdrop, chunksFrom_enough (m := cs.length +
    ((cs.flatMap Piece.written).length + rest.length + 1)),
    chunksFrom_pieces, chunksFrom_enough (m := rest.length + 1)]
  · omega
  · omega
  · simp only [List.length_append]
    omega
  · simp only [List.length_append]
    omega

theorem slice?_append {head : List Byte} {start stop : Nat} (h : start ≤ stop)
    (h' : stop ≤ head.length)
    (rest : List Byte) : slice? (head ++ rest) start stop = slice? head start stop := by
  have hstop : stop ≤ (head ++ rest).length := by
    rw [List.length_append]
    omega
  rw [slice?_eq h hstop, slice?_eq h h', List.drop_append_of_le_length (Nat.le_trans h h'),
    List.take_append_of_le_length]
  rw [List.length_drop]
  omega

theorem isRiff_append {head : List Byte} (hhead : head.length = 12) (rest : List Byte) :
    IsRiff (head ++ rest) ↔ IsRiff head := by
  unfold IsRiff
  rw [slice?_append (by omega) (by omega), slice?_append (by omega) (by omega)]

theorem judge_fmt {body : List Byte} {f : Format} (h : parseFmt body = .ok f)
    (cs : List RiffChunk) :
    judge fl format ((ascii "fmt ", body) :: cs) = judge fl (some f) cs := by
  refine (if_pos rfl).trans ?_
  dsimp only
  rw [h]

theorem judge_data (f : Format) (body : List Byte) (cs : List RiffChunk) :
    judge fl (some f) ((ascii "data", body) :: cs) = .ok (toPcm fl f body) := by
  have hne : ascii "data" ≠ ascii "fmt " := by decide
  exact (if_neg hne).trans (if_pos rfl)

/-- A chunk that is neither a format nor data is passed over. -/
theorem judge_insert {c : RiffChunk} (hfmt : c.1 ≠ ascii "fmt ") (hdata : c.1 ≠ ascii "data")
    (cs ds : List RiffChunk) : judge fl format (cs ++ c :: ds) = judge fl format (cs ++ ds) := by
  induction cs generalizing format with
  | nil =>
    rw [List.nil_append, List.nil_append]
    exact (if_neg hfmt).trans (if_neg hdata)
  | cons d cs ih =>
    rw [List.cons_append, List.cons_append]
    unfold judge
    split
    · cases parseFmt d.2 with
      | error e => rfl
      | ok f => exact ih
    · split
      · rfl
      · exact ih

theorem decode_insert (fl : Floats) {head : List Byte} (hhead : head.length = 12) (cs : List Piece)
    (c : Piece) (hfmt : c.id ≠ ascii "fmt ") (hdata : c.id ≠ ascii "data") (rest : List Byte) :
    decodeWav fl (head ++ (cs.flatMap Piece.written ++ (c.written ++ rest))) =
      decodeWav fl (head ++ (cs.flatMap Piece.written ++ rest)) := by
  have hmore : cs.flatMap Piece.written ++ (c.written ++ rest) =
      (cs ++ [c]).flatMap Piece.written ++ rest := by simp
  rw [decode_reads, decode_reads, hmore, chunksOf_pieces hhead, chunksOf_pieces hhead]
  simp only [isRiff_append hhead]
  rw [List.map_append, List.append_assoc]
  show some (if IsRiff head then judge fl none (cs.map Piece.chunk ++ c.chunk :: _) else _) = _
  rw [judge_insert hfmt hdata]
  rfl

/-! ## The samples -/

/-- A format has one of the sizes that `toPcm` reads. -/
theorem parseFmt_supported {body : List Byte} {f : Format} (h : parseFmt body = .ok f) :
    Supported f.float f.bits := by
  unfold parseFmt at h
  obtain ⟨tag, -, h⟩ := Lib.bind_ok h
  obtain ⟨channels, -, h⟩ := Lib.bind_ok h
  obtain ⟨sampleRate, -, h⟩ := Lib.bind_ok h
  obtain ⟨bits, -, h⟩ := Lib.bind_ok h
  obtain ⟨float, -, h⟩ := Lib.bind_ok h
  split at h
  · cases h
  split at h
  next hbits =>
    obtain rfl := Except.ok.inj h
    exact hbits
  · cases h

/-- The samples are the whole ones of the declared width. -/
theorem toPcm_length (fl : Floats) {body data : List Byte} {f : Format}
    (h : parseFmt body = .ok f) :
    (toPcm fl f data).samples.length = data.length / (f.bits.toNat / 8) := by
  have hbits := parseFmt_supported h
  unfold toPcm
  dsimp only
  cases hf : f.float with
  | true =>
    rw [hf] at hbits
    change f.bits = 32 ∨ f.bits = 64 at hbits
    rw [if_pos rfl]
    rcases hbits with hb | hb
    · rw [if_pos hb, List.length_map, Lib.Chunks.whole_length, hb]
      rfl
    · rw [if_neg (by rw [hb]; decide), List.length_map, Lib.Chunks.whole_length, hb]
      rfl
  | false =>
    rw [hf] at hbits
    change f.bits = 8 ∨ f.bits = 16 ∨ f.bits = 24 ∨ f.bits = 32 at hbits
    rw [if_neg (by decide)]
    rcases hbits with hb | hb | hb | hb
    · rw [if_pos hb, List.length_map, hb]
      exact (Nat.div_one _).symm
    · unfold samples16
      rw [if_neg (by rw [hb]; decide), if_pos hb, List.length_map, Lib.Chunks.whole_length, hb]
      rfl
    · rw [if_neg (by rw [hb]; decide), if_neg (by rw [hb]; decide), if_pos hb, List.length_map,
        Lib.Chunks.whole_length, hb]
      rfl
    · rw [if_neg (by rw [hb]; decide), if_neg (by rw [hb]; decide), if_neg (by rw [hb]; decide),
        List.length_map, Lib.Chunks.whole_length, hb]
      rfl

/-- What is decoded are the whole samples of the data. -/
theorem decode_samples {chunk : PcmChunk} (h : decodeWav fl bytes = some (.ok chunk)) : ∃ b f data,
    b ∈ (fmtsOf (chunksOf bytes)).getLast? ∧ parseFmt b = .ok f ∧ dataOf
    (chunksOf bytes) = some data ∧
      chunk = toPcm fl f data ∧ chunk.samples.length = data.length / (f.bits.toNat / 8) := by
  have hriff : IsRiff bytes := by
    rw [decode_reads] at h
    by_contra hno
    rw [if_neg hno] at h
    cases h
  rw [decode_riff fl hriff] at h
  obtain ⟨format, hformat, hdata⟩ := Lib.bind_ok (Option.some.inj h)
  cases hbytes : dataOf (chunksOf bytes) with
  | none =>
    rw [hbytes] at hdata
    cases hdata
  | some data =>
    rw [hbytes] at hdata
    cases format with
    | none => cases hdata
    | some f =>
      have hchunk := Except.ok.inj hdata
      rcases formatOf_some hformat with ⟨-, hnone⟩ | ⟨b, hb, hparse⟩
      · cases hnone
      · refine ⟨b, f, data, hb, hparse, rfl, hchunk.symm, ?_⟩
        rw [← hchunk]
        exact toPcm_length fl hparse

/-! ## Encoding and decoding -/

theorem samples16_le16 (samples : List Sample) : samples16 (samples.flatMap le16) = samples := by
  induction samples with
  | nil => rfl
  | cons x xs ih =>
    unfold samples16 at ih ⊢
    have hone := Lib.Chunks.whole_cons (c := le16 x) (n := 2) rfl (by decide) (xs.flatMap le16)
    rw [List.flatMap_cons, hone, List.map_cons, ih, sampleOfLe_le16]

theorem flatMap_le16_length (samples : List Sample) :
    (samples.flatMap le16).length = samples.length * 2 := by
  induction samples with
  | nil => rfl
  | cons x xs ih =>
    rw [List.flatMap_cons, List.length_append, ih, List.length_cons, Nat.add_mul, Nat.add_comm]
    rfl

/-- The body of the fmt chunk that `encode` writes. -/
def fmtBody (pcm : PcmChunk) : List Byte :=
  le16 formatPcm ++ le16 pcm.channels ++ le32 pcm.sampleRate ++
    le32 (pcm.sampleRate * (pcm.channels * 2).setWidth 32) ++ le16 (pcm.channels * 2) ++ le16 16

/-- A written format is read back. -/
theorem parseFmt_encoded {pcm : PcmChunk} (hc : pcm.channels ≠ 0) (hr : pcm.sampleRate ≠ 0) :
    parseFmt (fmtBody pcm) =
      .ok { channels := pcm.channels, sampleRate := pcm.sampleRate, bits := 16, float := false } := by
  have htag : u16At (fmtBody pcm) 0 = some formatPcm := congrArg some (sampleOfLe_le16 _)
  have hchannels : u16At (fmtBody pcm) 2 = some pcm.channels := congrArg some (sampleOfLe_le16 _)
  have hrate : u32At (fmtBody pcm) 4 = some pcm.sampleRate := congrArg some (wordOfLe_le32 _)
  have hbits : u16At (fmtBody pcm) 14 = some 16 := congrArg some (sampleOfLe_le16 _)
  unfold parseFmt
  rw [htag, hchannels, hrate, hbits]
  have hext : formatPcm ≠ formatExtensible := by decide
  show (if pcm.channels = 0 ∨ pcm.sampleRate = 0 then _ else _) = _
  rw [if_neg (not_or.mpr ⟨hc, hr⟩)]
  rfl

/-- **What is encoded is decoded**, as long as the header holds its sizes. -/
theorem decode_encode (fl : Floats) (pcm : PcmChunk) (hc : pcm.channels ≠ 0)
    (hr : pcm.sampleRate ≠ 0)
    (hlen : 36 + 2 * pcm.samples.length < 2 ^ 32) : decodeWav fl (encodeWav pcm) = some (.ok pcm) := by
  have hbytes := flatMap_le16_length pcm.samples
  let head : List Byte :=
    ascii "RIFF" ++ le32 (36 + BitVec.ofNat 32 (pcm.samples.length * 2)) ++ ascii "WAVE"
  have hfmt : (fmtBody pcm).length = 16 := rfl
  let fmt : Piece := ⟨ascii "fmt ", fmtBody pcm, [], rfl, by omega, by rw [hfmt]; rfl⟩
  let data : Piece := ⟨ascii "data", pcm.samples.flatMap le16, [], rfl, by omega, by
    rw [hbytes, Nat.mul_mod_left]
    rfl⟩
  have hfile : encodeWav pcm = head ++ ([fmt, data].flatMap Piece.written ++ []) := by
    have hdata : data.written = ascii "data" ++ le32 (BitVec.ofNat 32 (pcm.samples.length * 2)) ++
        pcm.samples.flatMap le16 ++ [] := by
      show ascii "data" ++ le32 (BitVec.ofNat 32 (pcm.samples.flatMap le16).length) ++ _ ++ _ = _
      rw [hbytes]
    rw [List.flatMap_cons, List.flatMap_singleton, hdata]
    unfold encodeWav
    simp only [List.append_assoc, List.append_nil]
    rfl
  have hriff : IsRiff (head ++ ([fmt, data].flatMap Piece.written ++ [])) := by
    rw [isRiff_append rfl]
    exact ⟨rfl, rfl⟩
  rw [decode_reads, hfile, if_pos hriff, chunksOf_pieces rfl]
  show some (judge fl none [(ascii "fmt ", fmtBody pcm),
    (ascii "data", pcm.samples.flatMap le16)]) = _
  rw [judge_fmt (parseFmt_encoded hc hr), judge_data]
  show some (Except.ok (PcmChunk.mk (samples16 (pcm.samples.flatMap le16)) _ _)) = _
  rw [samples16_le16]

/-- One sample in mono. -/
def click : PcmChunk where
  samples := [1]
  sampleRate := 8000
  channels := 1

/-- `decode` always gives a chunk or an error. A bad fmt chunk before the data is its error; else
the last fmt chunk and the data give the samples, whatever other chunks there are. -/
theorem wav_codec (fl : Floats) :
    (∀ bytes, ∃ result, decodeWav fl bytes = some result) ∧
      (∀ bytes, IsRiff bytes → decodeWav fl bytes =
        some (verdict fl none (fmtsOf (chunksOf bytes)) (dataOf (chunksOf bytes)))) ∧
      (∀ (fmts : List (List Byte)) b data, (∀ d ∈ fmts, ∃ f, parseFmt d = .ok f) →
        verdict fl none (fmts ++ [b]) data = verdict fl none [b] data) ∧
      (∀ (fmts more : List (List Byte)) b data e, (∀ d ∈ fmts, ∃ f, parseFmt d = .ok f) →
        parseFmt b = .error e → verdict fl none (fmts ++ b :: more) data = .error e) ∧
      (∀ (head : List Byte) (cs : List Piece) (c : Piece) (rest : List Byte), head.length = 12 →
        c.id ≠ ascii "fmt " → c.id ≠ ascii "data" →
        decodeWav fl (head ++ (cs.flatMap Piece.written ++ (c.written ++ rest))) =
          decodeWav fl (head ++ (cs.flatMap Piece.written ++ rest))) ∧
      (∀ bytes chunk, decodeWav fl bytes = some (.ok chunk) → ∃ b f data,
        b ∈ (fmtsOf (chunksOf bytes)).getLast? ∧ parseFmt b = .ok f ∧ dataOf
        (chunksOf bytes) = some data ∧
          chunk = toPcm fl f data ∧ chunk.samples.length = data.length / (f.bits.toNat / 8)) ∧
      ∀ pcm : PcmChunk, 1 ≤ pcm.channels.toNat → 1 ≤ pcm.sampleRate.toNat →
      2 * pcm.channels.toNat < 2 ^ 16 →
        2 * pcm.channels.toNat * pcm.sampleRate.toNat < 2 ^ 32 →
        36 + 2 * pcm.samples.length < 2 ^ 32 →
        decodeWav fl (encodeWav pcm) = some (.ok pcm) := by
  refine ⟨fun bytes => ⟨_, decode_reads fl bytes⟩, fun bytes hriff => decode_riff fl hriff,
    fun fmts b data h => verdict_last h b data,
    fun fmts more b data e h hb => verdict_error h hb more data,
    fun head cs c rest hhead hfmt hdata => decode_insert fl hhead cs c hfmt hdata rest,
    fun bytes chunk h => decode_samples h, ?_⟩
  intro pcm hchannels hrate _ _ hlen
  have hc : pcm.channels ≠ 0 := by
    rintro h
    rw [h] at hchannels
    exact absurd hchannels (by decide)
  have hr : pcm.sampleRate ≠ 0 := by
    rintro h
    rw [h] at hrate
    exact absurd hrate (by decide)
  exact decode_encode fl pcm hc hr hlen


theorem wav_codec_click : decodeWav ⟨fun _ => 0, fun _ => 0⟩ (encodeWav click) = some (.ok click) :=
  (wav_codec _).2.2.2.2.2.2 click (by decide) (by decide) (by decide) (by decide) (by decide)

/-- An empty fmt chunk before the right one. -/
def clickTwice : List Byte := (encodeWav click).take 12 ++ (ascii "fmt " ++ le32 0) ++
    (encodeWav click).drop 12

theorem empty_fmt_counts : ¬∀ (fl : Floats) (a b : List Byte), IsRiff a → IsRiff b →
    (fmtsOf (chunksOf a)).getLast? = (fmtsOf (chunksOf b)).getLast? →
    dataOf (chunksOf a) = dataOf (chunksOf b) → decodeWav fl a = decodeWav fl b := by
  intro h
  have hsame := h ⟨fun _ => 0, fun _ => 0⟩ (encodeWav click) clickTwice (by decide) (by decide)
    (by decide) (by decide)
  revert hsame
  decide

end Sonara.Pcm
