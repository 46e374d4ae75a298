import Mathlib.Data.List.Basic
import Mathlib.Tactic.Ring
import Mathlib.Tactic.Linarith
import MojoProse.Schemes.Guard

/-! The token window of a request (`max/pipelines/context/tokens.py`).

    A `TokenBuffer` keeps every token of a request and two ranges over them: the processing range (what the next forward
    reads) and the completion range (what has not been streamed yet). Every method that can raise returns `Except`, with
    the message of the `ValueError`; a call that raises has changed nothing. -/

namespace MojoProse.Pipelines
open Schemes

/-- `Range(start, end)`: non-negative bounds, `end` spelled `stop`. -/
structure Range where
  start : ℕ
  stop : ℕ
  deriving DecidableEq, Repr

/-- `len(range)`. -/
def Range.length (r : Range) : ℤ := max 0 ((r.stop : ℤ) - r.start)

def Range.bumpStart (r : Range) (amount : ℤ) : Except String Range :=
  if (r.start : ℤ) + amount < 0 then
    .error s!"start ({r.start}) + amount ({amount}) must be >= 0"
  else if (r.start : ℤ) + amount > r.stop then
    .error s!"start ({r.start}) + amount ({amount}) must be <= end ({r.stop})"
  else .ok { r with start := ((r.start : ℤ) + amount).toNat }

def Range.bumpEnd (r : Range) (amount : ℤ) : Except String Range :=
  if (r.stop : ℤ) + amount < 0 then
    .error s!"end ({r.stop}) + amount ({amount}) must be >= 0"
  else if (r.stop : ℤ) + amount < r.start then
    .error s!"end ({r.stop}) + amount ({amount}) must be >= start ({r.start})"
  else .ok { r with stop := ((r.stop : ℤ) + amount).toNat }

/-- `Range.advance`: the range becomes empty at its own end. -/
def Range.advance (r : Range) : Range := { r with start := r.stop }

/-- `a[lo:hi]` of Python and numpy: a negative bound counts from the end, and both are cut to the array. -/
def slice {α : Type} (a : List α) (lo hi : ℤ) : List α :=
  let place (i : ℤ) : ℕ := if i < 0 then (i + a.length).toNat else i.toNat
  (a.take (place hi)).drop (place lo)

/-- `TokenBuffer`. `all` is `array[:_current_length]`; the spare capacity behind it is never read. -/
structure TokenBuffer where
  all : List ℤ
  processingRange : Range
  processingOffset : ℤ
  completionRange : Range
  promptLength : ℕ
  activelyChunked : Bool
  deriving DecidableEq, Repr

namespace TokenBuffer

/-- The fields `__init__` sets: every token is prompt and waits to be processed. -/
def initial (array : List ℤ) : TokenBuffer where
  all := array
  processingRange := ⟨0, array.length⟩
  processingOffset := 0
  completionRange := ⟨array.length, array.length⟩
  promptLength := array.length
  activelyChunked := false

/-- `TokenBuffer(array)`, for a one-dimensional int64 array. -/
def new (array : List ℤ) : Except String TokenBuffer :=
  if array.length = 0 then .error "array must be non-empty: got length 0" else .ok (initial array)

variable (t : TokenBuffer)

def processedLength : ℕ := t.processingRange.start

/-- `active_length`, an int: a processing offset may push it below zero. -/
def activeLength : ℤ := t.processingRange.length - t.processingOffset

def generatedLength : ℤ := (t.all.length : ℤ) - t.promptLength

/-- The tokens the next forward reads, when the window starts inside the array. -/
def active : List ℤ :=
  (t.all.take t.processingRange.stop).drop ((t.processingRange.start : ℤ) + t.processingOffset).toNat

/-- The same wherever the window starts: a slice of the whole array, `spare` being the capacity behind the tokens. -/
def activeSlice (spare : List ℤ) : List ℤ :=
  slice (t.all ++ spare) (t.processingRange.start + t.processingOffset) t.processingRange.stop

def currentPosition : ℤ := t.processedLength + t.activeLength

def generated : List ℤ := t.all.drop t.promptLength

def rewindProcessing (n : ℤ) : Except String TokenBuffer :=
  if n < 0 then .error s!"n must be non-negative: got {n}"
  else do
    let r ← t.processingRange.bumpStart (-n)
    return { t with processingRange := r }

/-- `skip_processing`: one active token has to remain. -/
def skipProcessing (n : ℤ) : Except String TokenBuffer :=
  if n < 0 then .error s!"n must be non-negative: got {n}"
  else if n ≥ t.activeLength then
    .error s!"Cannot skip {n} tokens: would leave {t.activeLength - n} active tokens. Must have at least 1 active token (current active_length={t.activeLength})"
  else do
    let r ← t.processingRange.bumpStart n
    return { t with processingRange := r }

/-- `chunk`: cut the active window to its first `chunkSize` tokens. -/
def chunk (chunkSize : ℤ) : Except String TokenBuffer :=
  if chunkSize ≤ 0 ∨ chunkSize ≥ t.activeLength then
    .error s!"chunk size must be between 1 and the current number of active tokens: got {chunkSize}"
  else do
    let r ← t.processingRange.bumpEnd (chunkSize - t.activeLength)
    return { t with processingRange := r, activelyChunked := true }

def applyProcessingOffset (value : ℤ) : Except String TokenBuffer :=
  if (t.processingRange.start : ℤ) + value < 0 then
    .error s!"processing range start ({t.processingRange.start}) + processing offset ({value}) must be >= 0"
  else if (t.processingRange.start : ℤ) + value > t.processingRange.stop then
    .error s!"processing range start ({t.processingRange.start}) + processing offset ({value}) must be <= processing range end ({t.processingRange.stop})"
  else .ok { t with processingOffset := value }

/-- `advance_chunk`: the tokens behind the chunk become the active window. -/
def advanceChunk : Except String TokenBuffer :=
  if t.activelyChunked = false then .error "Cannot advance chunk if not actively chunked."
  else do
    let t ← if t.processingOffset ≠ 0 then t.applyProcessingOffset 0 else pure t
    return { t with
      processingRange := { t.processingRange.advance with stop := t.all.length }
      activelyChunked := false }

/-- `advance_with_token`: the token becomes the active window. -/
def advanceWithToken (token : ℤ) : Except String TokenBuffer :=
  if t.activelyChunked then .error "Cannot add a token while actively chunked."
  else do
    let processing ← t.processingRange.advance.bumpEnd 1
    let completion ← t.completionRange.bumpEnd 1
    let t := { t with
      all := t.all ++ [token]
      processingRange := processing
      completionRange := completion }
    if t.processingOffset ≠ 0 then t.applyProcessingOffset 0 else return t

def overwriteLastToken (token : ℤ) : TokenBuffer := { t with all := t.all.set (t.all.length - 1) token }

/-- `consume_recently_generated_tokens`, with the tokens it returns. -/
def consumeRecentlyGeneratedTokens : Except String (List ℤ × TokenBuffer) :=
  if t.completionRange.start = t.completionRange.stop then .error "No tokens have been generated yet."
  else if t.completionRange.stop > t.all.length then
    .error s!"Internal error: completion range end ({t.completionRange.stop}) exceeds current length ({t.all.length})"
  else do
    let completion ← t.completionRange.bumpStart ((t.completionRange.stop : ℤ) - t.completionRange.start)
    return (slice t.all t.completionRange.start t.completionRange.stop,
      { t with completionRange := completion })

/-- `reset_as_new_prompt`: the offset stays as it is. -/
def resetAsNewPrompt (deleteLastGeneratedToken : Bool) : Except String TokenBuffer :=
  if t.processingRange.stop > t.all.length then
    .error s!"Internal error: processing range end ({t.processingRange.stop}) exceeds current length ({t.all.length})"
  else if deleteLastGeneratedToken ∧ t.generatedLength = 0 then
    .error "Cannot delete the last generated token if there are no generated tokens."
  else
    let all := if deleteLastGeneratedToken then t.all.dropLast else t.all
    .ok { t with
      all
      processingRange := ⟨0, all.length⟩
      completionRange := ⟨all.length, all.length⟩
      promptLength := all.length
      activelyChunked := false }

/-- A window inside the buffer, with the offset inside the window. -/
structure Proper : Prop where
  start_le : t.processingRange.start ≤ t.processingRange.stop
  stop_le : t.processingRange.stop ≤ t.all.length
  offset_nonneg : 0 ≤ (t.processingRange.start : ℤ) + t.processingOffset
  offset_le : (t.processingRange.start : ℤ) + t.processingOffset ≤ t.processingRange.stop

variable {t} {t' : TokenBuffer} {n : ℤ}

theorem initial_proper (array : List ℤ) : (initial array).Proper := ⟨Nat.zero_le _, le_rfl, le_rfl, by simp [initial]⟩

theorem Proper.activeLength_nonneg (hp : t.Proper) : 0 ≤ t.activeLength := by
  have := hp.offset_le
  simp only [activeLength, Range.length]
  omega

theorem Proper.activeLength_eq (hp : t.Proper) : t.activeLength =
    (t.processingRange.stop : ℤ) - t.processingRange.start - t.processingOffset := by
  have := hp.start_le
  simp only [activeLength, Range.length]
  omega

theorem bumpStart_ok {r r' : Range} (h : r.bumpStart n = .ok r') :
    0 ≤ r.start + n ∧ r.start + n ≤ r.stop ∧ r' = ⟨(r.start + n).toNat, r.stop⟩ := by
  unfold Range.bumpStart at h
  split_ifs at h with hneg hover
  cases h
  exact ⟨not_lt.mp hneg, not_lt.mp hover, rfl⟩

theorem bumpEnd_ok {r r' : Range} (h : r.bumpEnd n = .ok r') :
    r.start ≤ r.stop + n ∧ r' = ⟨r.start, r'.stop⟩ ∧ r'.stop = r.stop + n := by
  unfold Range.bumpEnd at h
  split_ifs at h with hneg hover
  cases h
  exact ⟨not_lt.mp hover, rfl, Int.toNat_of_nonneg (not_lt.mp hneg)⟩

theorem rewindProcessing_inv (h : t.rewindProcessing n = .ok t') :
    0 ≤ n ∧ 0 ≤ t.processingRange.start - n ∧ t' = { t with
      processingRange := ⟨(t.processingRange.start - n).toNat, t.processingRange.stop⟩ } := by
  rw [rewindProcessing] at h
  split_ifs at h with hn
  obtain ⟨r, hr, h⟩ := bind_eq_ok.mp h
  cases h
  obtain ⟨hstart, -, rfl⟩ := bumpStart_ok hr
  exact ⟨not_lt.mp hn, hstart, rfl⟩

theorem skipProcessing_inv (h : t.skipProcessing n = .ok t') :
    0 ≤ n ∧ n < t.activeLength ∧ t.processingRange.start + n ≤ t.processingRange.stop ∧ t' = { t with
      processingRange := ⟨(t.processingRange.start + n).toNat, t.processingRange.stop⟩ } := by
  rw [skipProcessing] at h
  split_ifs at h with hn hact
  obtain ⟨r, hr, h⟩ := bind_eq_ok.mp h
  cases h
  obtain ⟨-, hstop, rfl⟩ := bumpStart_ok hr
  exact ⟨not_lt.mp hn, not_le.mp hact, hstop, rfl⟩

theorem rewindProcessing_ok (h : t.rewindProcessing n = .ok t') :
    (t'.processedLength : ℤ) = t.processedLength - n ∧ t.activeLength ≤ t'.activeLength := by
  obtain ⟨hn, hstart, rfl⟩ := rewindProcessing_inv h
  simp only [processedLength, activeLength, Range.length]
  omega

theorem skipProcessing_ok (h : t.skipProcessing n = .ok t') :
    (t'.processedLength : ℤ) = t.processedLength + n ∧ 1 ≤ t'.activeLength := by
  obtain ⟨hn, hact, hstop, rfl⟩ := skipProcessing_inv h
  simp only [processedLength, activeLength, Range.length] at hact ⊢
  omega

theorem rewindProcessing_of_le {m : ℕ} (hm : m ≤ t.processedLength)
    (hw : t.processingRange.start ≤ t.processingRange.stop) : t.rewindProcessing m = .ok { t with
      processingRange := ⟨t.processingRange.start - m, t.processingRange.stop⟩ } := by
  rw [processedLength] at hm
  have hstart : ((t.processingRange.start : ℤ) + -(m : ℤ)).toNat = t.processingRange.start - m := by
    omega
  rw [rewindProcessing, if_neg (by omega), Range.bumpStart, if_neg (by omega), if_neg (by omega), hstart]
  rfl

theorem skipProcessing_window (h : t.skipProcessing n = .ok t') :
    t'.processingRange.start ≤ t'.processingRange.stop := by
  obtain ⟨-, -, hstop, rfl⟩ := skipProcessing_inv h
  show (_ : ℤ).toNat ≤ t.processingRange.stop
  omega

theorem chunk_ok (h : t.chunk n = .ok t') :
    0 < n ∧ n < t.activeLength ∧ t.processingRange.start ≤ t'.processingRange.stop ∧
      (t'.processingRange.stop : ℤ) = t.processingRange.stop + (n - t.activeLength) ∧
      t' = { t with processingRange := ⟨t.processingRange.start, t'.processingRange.stop⟩,
                    activelyChunked := true } := by
  rw [chunk] at h
  split_ifs at h
  obtain ⟨r, hr, h⟩ := bind_eq_ok.mp h
  cases h
  obtain ⟨hstart, hstop⟩ := bumpEnd_ok hr
  refine ⟨by omega, by omega, ?_, hstop.2, by rw [hstop.1]⟩
  show t.processingRange.start ≤ r.stop
  omega

/-- The cut is exact: a window that ends before it starts is not cut. -/
theorem chunk_activeLength (h : t.chunk n = .ok t') : t'.activeLength = n := by
  obtain ⟨-, hlt, hle, hstop, heq⟩ := chunk_ok h
  rw [heq]
  simp only [activeLength, Range.length] at *
  omega

/-- A cut inside the window succeeds when the offset does not reach back before the window. -/
theorem Proper.exists_chunk (hp : t.Proper) (hoff : 0 ≤ t.processingOffset) (hpos : 0 < n)
    (hlt : n < t.activeLength) : ∃ t', t.chunk n = .ok t' := by
  have hact := hp.activeLength_eq
  unfold chunk Range.bumpEnd
  rw [if_neg (by omega), if_neg (by omega), if_neg (by omega)]
  exact ⟨_, rfl⟩

theorem chunk_all (h : t.chunk n = .ok t') : t'.all = t.all := by
  obtain ⟨-, -, -, -, heq⟩ := chunk_ok h
  rw [heq]

theorem Proper.chunk (hp : t.Proper) (h : t.chunk n = .ok t') : t'.Proper := by
  obtain ⟨hn, hlt, hle, hstop, heq⟩ := chunk_ok h
  have hact := hp.activeLength_eq
  have := hp.stop_le
  rw [heq]
  exact ⟨hle, by show t'.processingRange.stop ≤ t.all.length; omega, hp.offset_nonneg,
    by show (t.processingRange.start : ℤ) + t.processingOffset ≤ t'.processingRange.stop; omega⟩

end TokenBuffer

end MojoProse.Pipelines
