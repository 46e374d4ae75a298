import MojoProse.Pipelines.TokenBuffer
import MojoProse.Schemes.Run

/-! The active window of a `TokenBuffer` over whole runs.

    Every method that moves the window checks it, except two that keep the processing offset as it is:
    a rewind under a negative offset may put the start of the slice before the array, where numpy counts
    from its end, and a reset keeps an offset that belonged to the old window. -/

namespace MojoProse.Pipelines
open Schemes TokenBuffer List

inductive TokenOp where
  | chunk (chunkSize : ℤ)
  | advanceChunk
  | advanceWithToken (token : ℤ)
  | skipProcessing (n : ℤ)
  | rewindProcessing (n : ℤ)
  | applyProcessingOffset (value : ℤ)
  | consumeRecentlyGeneratedTokens
  | overwriteLastToken (token : ℤ)
  | resetAsNewPrompt (deleteLastGeneratedToken : Bool)

namespace TokenBuffer

def call (t : TokenBuffer) : TokenOp → Except String TokenBuffer
  | .chunk chunkSize => t.chunk chunkSize
  | .advanceChunk => t.advanceChunk
  | .advanceWithToken token => t.advanceWithToken token
  | .skipProcessing n => t.skipProcessing n
  | .rewindProcessing n => t.rewindProcessing n
  | .applyProcessingOffset value => t.applyProcessingOffset value
  | .consumeRecentlyGeneratedTokens => t.consumeRecentlyGeneratedTokens.map Prod.snd
  | .overwriteLastToken token => .ok (t.overwriteLastToken token)
  | .resetAsNewPrompt deleteLastGeneratedToken => t.resetAsNewPrompt deleteLastGeneratedToken

theorem slice_append {a : List ℤ} {lo : ℤ} {hi : ℕ} (hlo : 0 ≤ lo) (hhi : hi ≤ a.length)
    (spare : List ℤ) : slice (a ++ spare) lo hi = (a.take hi).drop lo.toNat := by
  have hnat : ¬ (hi : ℤ) < 0 := by omega
  simp only [slice, if_neg hlo.not_gt, if_neg hnat, Int.toNat_natCast]
  rw [take_append_of_le_length hhi]

/-- The window is a slice of the tokens of the reported length, and reaches to the end unless it is cut. -/
structure Consistent (t : TokenBuffer) : Prop where
  start_nonneg : 0 ≤ (t.processedLength : ℤ) + t.processingOffset
  start_le : (t.processedLength : ℤ) + t.processingOffset ≤ t.processingRange.stop
  stop_le : t.processingRange.stop ≤ t.all.length
  active_eq : ∀ spare, t.activeSlice spare =
    (t.all.take t.processingRange.stop).drop ((t.processedLength : ℤ) + t.processingOffset).toNat
  active_length : ∀ spare, t.activeLength = (t.activeSlice spare).length
  uncut : t.activelyChunked = false → t.processingRange.stop = t.all.length

structure Sound (t : TokenBuffer) : Prop extends t.Proper where
  uncut : t.activelyChunked = false → t.processingRange.stop = t.all.length
  prompt_pos : 0 < t.promptLength
  prompt_le : t.promptLength ≤ t.all.length

variable {t t' : TokenBuffer} {op : TokenOp} {token : ℤ}

theorem Sound.consistent (h : t.Sound) : t.Consistent := by
  have hslice : ∀ spare, t.activeSlice spare = (t.all.take t.processingRange.stop).drop
      ((t.processedLength : ℤ) + t.processingOffset).toNat := fun spare =>
    slice_append h.offset_nonneg h.stop_le spare
  refine ⟨h.offset_nonneg, h.offset_le, h.stop_le, hslice, fun spare => ?_, h.uncut⟩
  have h1 := h.offset_nonneg
  have h2 := h.offset_le
  have h3 := h.stop_le
  rw [hslice, h.activeLength_eq, length_drop, length_take, Nat.min_eq_left h3, processedLength]
  omega

theorem initial_sound {array : List ℤ} (hne : array ≠ []) : (initial array).Sound :=
  { initial_proper array with
    uncut := fun _ => rfl
    prompt_pos := length_pos_of_ne_nil hne
    prompt_le := le_rfl }

theorem Sound.chunk {n : ℤ} (h : t.Sound) (hok : t.chunk n = .ok t') : t'.Sound := by
  obtain ⟨-, -, -, -, heq⟩ := chunk_ok hok
  refine { h.toProper.chunk hok with uncut := ?_, prompt_pos := ?_, prompt_le := ?_ }
  · rw [heq]
    intro hcut
    cases hcut
  · rw [heq]
    exact h.prompt_pos
  · rw [heq]
    exact h.prompt_le

theorem applyProcessingOffset_ok {value : ℤ} (hok : t.applyProcessingOffset value = .ok t') :
    0 ≤ t.processingRange.start + value ∧ t.processingRange.start + value ≤ t.processingRange.stop ∧
      t' = { t with processingOffset := value } := by
  rw [applyProcessingOffset] at hok
  split_ifs at hok with hneg hover
  cases hok
  exact ⟨not_lt.mp hneg, not_lt.mp hover, rfl⟩

theorem Sound.applyProcessingOffset {value : ℤ} (h : t.Sound)
    (hok : t.applyProcessingOffset value = .ok t') : t'.Sound := by
  obtain ⟨hneg, hover, rfl⟩ := applyProcessingOffset_ok hok
  exact ⟨⟨h.start_le, h.stop_le, hneg, hover⟩, h.uncut, h.prompt_pos, h.prompt_le⟩

theorem clearOffset_eq (hw : t.processingRange.start ≤ t.processingRange.stop) :
    (if t.processingOffset ≠ 0 then t.applyProcessingOffset 0 else pure t) = .ok { t with processingOffset := 0 } := by
  by_cases hoff : t.processingOffset = 0
  · rw [if_neg (not_not.mpr hoff), ← hoff]
    rfl
  · rw [if_pos hoff, applyProcessingOffset, if_neg (by omega), if_neg (by omega)]

theorem advanceChunk_eq (hw : t.processingRange.start ≤ t.processingRange.stop) (hcut : t.activelyChunked = true) :
    t.advanceChunk = .ok { t with
      processingRange := ⟨t.processingRange.stop, t.all.length⟩
      processingOffset := 0
      activelyChunked := false } := by
  have hclear := clearOffset_eq hw
  rw [advanceChunk, if_neg (by simp [hcut])]
  split_ifs at hclear ⊢ with hoff
  · rw [hclear]
    rfl
  · rw [not_not] at hoff
    rw [← hoff]
    rfl

theorem Sound.advanceChunk (h : t.Sound) (hok : t.advanceChunk = .ok t') : t'.Sound := by
  cases hcut : t.activelyChunked with
  | false =>
    rw [TokenBuffer.advanceChunk, if_pos hcut] at hok
    cases hok
  | true =>
    rw [advanceChunk_eq h.start_le hcut] at hok
    cases hok
    refine ⟨⟨h.stop_le, le_rfl, ?_, ?_⟩, fun _ => rfl, h.prompt_pos, h.prompt_le⟩
    · simp
    · simpa using h.stop_le

theorem bumpEnd_one {r : Range} (hw : r.start ≤ r.stop + 1) : r.bumpEnd 1 = .ok ⟨r.start, r.stop + 1⟩ := by
  rw [Range.bumpEnd, if_neg (by omega), if_neg (by omega)]
  rfl

/-- The buffer with one more token: both ranges move, and the window is the token alone. -/
abbrev pushed (t : TokenBuffer) (token : ℤ) : TokenBuffer :=
  { t with
    all := t.all ++ [token]
    processingRange := ⟨t.processingRange.stop, t.processingRange.stop + 1⟩
    processingOffset := 0
    completionRange := ⟨t.completionRange.start, t.completionRange.stop + 1⟩ }

theorem advanceWithToken_eq (hcut : t.activelyChunked = false)
    (hcompletion : t.completionRange.start ≤ t.completionRange.stop + 1) :
    t.advanceWithToken token = .ok (t.pushed token) := by
  have hclear := clearOffset_eq (t := { t with
    all := t.all ++ [token]
    processingRange := ⟨t.processingRange.stop, t.processingRange.stop + 1⟩
    completionRange := ⟨t.completionRange.start, t.completionRange.stop + 1⟩ }) (Nat.le_succ _)
  rw [advanceWithToken, if_neg (by simp [hcut]), bumpEnd_one (Nat.le_succ _), bumpEnd_one hcompletion]
  exact hclear

theorem advanceWithToken_ok (hok : t.advanceWithToken token = .ok t') :
    t.activelyChunked = false ∧ t' = t.pushed token := by
  cases hcut : t.activelyChunked with
  | true =>
    rw [advanceWithToken, if_pos hcut] at hok
    cases hok
  | false =>
    have hcall := hok
    rw [advanceWithToken, if_neg (by simp [hcut])] at hcall
    obtain ⟨_, -, hcall⟩ := bind_eq_ok.mp hcall
    obtain ⟨_, hbump, -⟩ := bind_eq_ok.mp hcall
    have hle := (bumpEnd_ok hbump).1
    rw [advanceWithToken_eq hcut (by omega)] at hok
    exact ⟨rfl, (Except.ok.inj hok).symm⟩

theorem Sound.advanceWithToken (h : t.Sound) (hok : t.advanceWithToken token = .ok t') : t'.Sound := by
  obtain ⟨hcut, rfl⟩ := advanceWithToken_ok hok
  have huncut := h.uncut hcut
  refine ⟨⟨Nat.le_succ _, ?_, ?_, ?_⟩, fun _ => ?_, h.prompt_pos, ?_⟩
  · simp [huncut]
  · simp
  · simp
  · simp [huncut]
  · have := h.prompt_le
    simp only [length_append, length_singleton]
    omega

theorem Sound.withStart (h : t.Sound) {start : ℕ} (hle : start ≤ t.processingRange.stop)
    (hpos : 0 ≤ start + t.processingOffset) (hstop : start + t.processingOffset ≤ t.processingRange.stop) :
    Sound { t with processingRange := ⟨start, t.processingRange.stop⟩ } :=
  ⟨⟨hle, h.stop_le, hpos, hstop⟩, h.uncut, h.prompt_pos, h.prompt_le⟩

theorem Sound.skipProcessing {n : ℤ} (h : t.Sound) (hok : t.skipProcessing n = .ok t') : t'.Sound := by
  obtain ⟨hn, hact, hstop, rfl⟩ := skipProcessing_inv hok
  rw [h.activeLength_eq] at hact
  have h1 := h.offset_nonneg
  exact h.withStart (by omega) (by omega) (by omega)

theorem Sound.rewindProcessing {n : ℤ} (h : t.Sound) (hok : t.rewindProcessing n = .ok t')
    (hfits : n ≤ t.processedLength + t.processingOffset) : t'.Sound := by
  obtain ⟨hn, hstart, rfl⟩ := rewindProcessing_inv hok
  rw [processedLength] at hfits
  have h1 := h.start_le
  have h2 := h.offset_le
  exact h.withStart (by omega) (by omega) (by omega)

theorem consumeRecentlyGeneratedTokens_ok {tokens : List ℤ}
    (hok : t.consumeRecentlyGeneratedTokens = .ok (tokens, t')) : ∃ r, t' = { t with completionRange := r } := by
  rw [consumeRecentlyGeneratedTokens] at hok
  split_ifs at hok
  obtain ⟨r, -, hok⟩ := bind_eq_ok.mp hok
  cases hok
  exact ⟨r, rfl⟩

theorem resetAsNewPrompt_ok {delete : Bool} (hok : t.resetAsNewPrompt delete = .ok t') :
    ∃ all, (all = t.all ∨ all = t.all.dropLast ∧ t.generatedLength ≠ 0) ∧ t' = { t with
      all
      processingRange := ⟨0, all.length⟩
      completionRange := ⟨all.length, all.length⟩
      promptLength := all.length
      activelyChunked := false } := by
  rw [resetAsNewPrompt] at hok
  split_ifs at hok with hover hnone hdelete
  · cases hok
    exact ⟨t.all.dropLast, .inr ⟨rfl, fun h0 => hnone ⟨hdelete, h0⟩⟩, rfl⟩
  · cases hok
    exact ⟨t.all, .inl rfl, rfl⟩

theorem Sound.length_pos_of_reset (h : t.Sound) {all : List ℤ}
    (hall : all = t.all ∨ all = t.all.dropLast ∧ t.generatedLength ≠ 0) : 0 < all.length := by
  have h1 := h.prompt_pos
  have h2 := h.prompt_le
  rcases hall with rfl | ⟨rfl, hgen⟩
  · omega
  · rw [generatedLength] at hgen
    rw [length_dropLast]
    omega

theorem Sound.resetAsNewPrompt {delete : Bool} (h : t.Sound) (hok : t.resetAsNewPrompt delete = .ok t')
    (hfits : t.processingOffset = 0) : t'.Sound := by
  obtain ⟨all, hall, rfl⟩ := resetAsNewPrompt_ok hok
  exact ⟨⟨Nat.zero_le _, le_rfl, by simp [hfits], by simp [hfits]⟩, fun _ => rfl, h.length_pos_of_reset hall, le_rfl⟩

/-- A rewind leaves the start of the slice in the array, and a reset finds no offset. -/
def OffsetFits (t : TokenBuffer) : TokenOp → Prop
  | .rewindProcessing n => n ≤ t.processedLength + t.processingOffset
  | .resetAsNewPrompt _ => t.processingOffset = 0
  | _ => True

/-- What has to hold after a call: after a reset the window is the whole sequence. -/
def WindowOk (op : TokenOp) (t' : TokenBuffer) : Prop :=
  t'.Consistent ∧ ∀ delete, op = .resetAsNewPrompt delete → ∀ spare, t'.activeSlice spare = t'.all

theorem Sound.call (h : t.Sound) (hok : t.call op = .ok t') (hfits : OffsetFits t op) : t'.Sound := by
  cases op with
  | chunk n => exact h.chunk hok
  | advanceChunk => exact h.advanceChunk hok
  | advanceWithToken token => exact h.advanceWithToken hok
  | skipProcessing n => exact h.skipProcessing hok
  | rewindProcessing n => exact h.rewindProcessing hok hfits
  | applyProcessingOffset value => exact h.applyProcessingOffset hok
  | consumeRecentlyGeneratedTokens =>
    rw [call] at hok
    cases hc : t.consumeRecentlyGeneratedTokens with
    | error m =>
      rw [hc] at hok
      cases hok
    | ok res =>
      obtain ⟨tokens, t''⟩ := res
      rw [hc] at hok
      cases hok
      obtain ⟨r, rfl⟩ := consumeRecentlyGeneratedTokens_ok hc
      exact ⟨⟨h.start_le, h.stop_le, h.offset_nonneg, h.offset_le⟩, h.uncut, h.prompt_pos, h.prompt_le⟩
  | overwriteLastToken token =>
    cases hok
    have hlen : (t.all.set (t.all.length - 1) token).length = t.all.length := length_set ..
    exact ⟨⟨h.start_le, hlen ▸ h.stop_le, h.offset_nonneg, h.offset_le⟩, hlen ▸ h.uncut, h.prompt_pos,
      hlen ▸ h.prompt_le⟩
  | resetAsNewPrompt delete => exact h.resetAsNewPrompt hok hfits

/-- The window after one call is what it should be exactly when the offset fits. -/
theorem Sound.windowOk_iff (h : t.Sound) (hok : t.call op = .ok t') : WindowOk op t' ↔ OffsetFits t op := by
  constructor
  · rintro ⟨hcons, hreset⟩
    cases op with
    | rewindProcessing n =>
      obtain ⟨hn, hstart, rfl⟩ := rewindProcessing_inv hok
      have := hcons.start_nonneg
      simp only [processedLength, OffsetFits] at this ⊢
      omega
    | resetAsNewPrompt delete =>
      obtain ⟨all, hall, rfl⟩ := resetAsNewPrompt_ok hok
      have hlen := hcons.active_length []
      have h1 := hcons.start_nonneg
      rw [hreset delete rfl] at hlen
      simp only [activeLength, Range.length, processedLength] at hlen h1
      show t.processingOffset = 0
      omega
    | _ => trivial
  · intro hfits
    have h' := h.call hok hfits
    refine ⟨h'.consistent, ?_⟩
    rintro delete rfl spare
    obtain ⟨all, -, rfl⟩ := resetAsNewPrompt_ok hok
    have hoff : t.processingOffset = 0 := hfits
    rw [h'.consistent.active_eq]
    simp [processedLength, hoff]

def next (t : TokenBuffer) (op : TokenOp) : TokenBuffer :=
  match t.call op with
  | .ok t' => t'
  | .error _ => t

/-- The steps of a run: calls that return, with an offset that fits. -/
def Fitting (t : TokenBuffer) (op : TokenOp) : Prop := (t.call op).isOk ∧ OffsetFits t op

def Reached (t : TokenBuffer) : Prop :=
  ∃ array, array ≠ [] ∧ Reachable (initial array) Fitting next t

theorem Reached.sound (ht : t.Reached) : t.Sound := by
  obtain ⟨array, hne, ht⟩ := ht
  refine ht.invariant (initial_sound hne) fun t op h hfitting => ?_
  obtain ⟨hok, hfits⟩ := hfitting
  rw [next]
  cases hcall : t.call op with
  | error m =>
    rw [hcall] at hok
    cases hok
  | ok t' => exact h.call hcall hfits

theorem Reached.next (ht : t.Reached) (h : Fitting t op) : (t.next op).Reached := by
  obtain ⟨array, hne, ht⟩ := ht
  exact ⟨array, hne, .next ht h⟩

/-- In every run whose rewinds and resets fit the offset, the window is consistent after each call; and one more call
    that returns leaves it consistent, and whole after a reset, exactly when the call fits the offset. -/
theorem window_consistent_iff (t : TokenBuffer) (ht : t.Reached) :
    t.Consistent ∧ ∀ op t', t.call op = .ok t' → (WindowOk op t' ↔ OffsetFits t op) :=
  ⟨ht.sound.consistent, fun _ _ hok => ht.sound.windowOk_iff hok⟩

instance (t : TokenBuffer) (op : TokenOp) : Decidable (Fitting t op) := by
  unfold Fitting
  cases op <;> unfold OffsetFits <;> infer_instance

/-- Three of five tokens are processed, and the last of them is to be read again. -/
def readAgain : TokenBuffer :=
  [.skipProcessing 3, .applyProcessingOffset (-1)].foldl next (initial [1, 2, 3, 4, 5])

theorem readAgain_reached : readAgain.Reached := ⟨[1, 2, 3, 4, 5], by simp, Reachable.run _ .start (by decide)⟩

/-- The reset keeps the offset: the window is one token from the end of the array, and six are reported. -/
theorem reset_keeps_offset :
    readAgain.Reached ∧ readAgain.call (.resetAsNewPrompt false) = .ok (readAgain.next (.resetAsNewPrompt false)) ∧
    (readAgain.next (.resetAsNewPrompt false)).activeSlice [] = [5] ∧
    (readAgain.next (.resetAsNewPrompt false)).activeLength = 6 ∧
    ¬ WindowOk (.resetAsNewPrompt false) (readAgain.next (.resetAsNewPrompt false)) := by
  refine ⟨readAgain_reached, by decide, by decide, by decide, fun h => ?_⟩
  have := h.2 false rfl []
  revert this
  decide

/-- Without the offset the same reset gives the whole sequence back. -/
theorem window_consistent_iff_readAgain : WindowOk (.resetAsNewPrompt false)
      ((readAgain.next (.applyProcessingOffset 0)).next (.resetAsNewPrompt false)) :=
  ((window_consistent_iff (readAgain.next (.applyProcessingOffset 0))
    (readAgain_reached.next (by decide))).2 _ _ (by decide)).mpr rfl

end TokenBuffer

end MojoProse.Pipelines
