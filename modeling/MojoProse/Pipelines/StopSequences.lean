import MojoProse.Pipelines.TokenWindow
import MojoProse.Support.Math
import Mathlib.Data.List.Infix
import Mathlib.Data.List.MinMax

/-! Where generation stops (`EOSTracker`, and `TextContext.update` and `reset` of `context.py`).

    The stop check reads the tokens counted as generated. A preempted request is reset, which counts
    what it generated as prompt, so a stop sequence that began before the reset is not seen. Stop strings are searched
    in a tail of the decoded text, which is cut before the search. -/

namespace MojoProse.Pipelines

open List TokenBuffer Support

/-- `EOSTracker`, without the stop strings: those are checked on decoded text. -/
structure EOSTracker where
  eosTokenIds : List ℤ
  eosSequences : List (List ℤ)

namespace EOSTracker

/-- The test of `is_eos_from_tokens` on tokens that end in `last`. -/
def stops (tracker : EOSTracker) (generatedTokens : List ℤ) (last : ℤ) : Bool :=
  decide (last ∈ tracker.eosTokenIds) || tracker.eosSequences.any fun eos =>
    eos.length ≤ generatedTokens.length &&
      generatedTokens.drop (generatedTokens.length - eos.length) = eos

def isEosFromTokens (tracker : EOSTracker) (generatedTokens : List ℤ) : Except String Bool :=
  match generatedTokens.getLast? with
  | none => .error "generated_tokens must be non-empty"
  | some last => .ok (tracker.stops generatedTokens last)

variable (tracker : EOSTracker)

def maxEosSeqLen : ℕ :=
  if tracker.eosSequences = [] then 1 else (tracker.eosSequences.map length).foldr max 0

/-- `eos_sequence_lookback`. It is -1 when all the sequences are empty. -/
def eosSequenceLookback : ℤ := tracker.maxEosSeqLen - 1

/-- The prior tokens that `first_eos_offset` keeps. -/
def lookbackTail (priorGenerated : List ℤ) : List ℤ :=
  if tracker.eosSequenceLookback = 0 then []
  else priorGenerated.drop (priorGenerated.length - tracker.eosSequenceLookback).toNat

def firstEosOffset (priorGenerated newTokens : List ℤ) : Except String (Option ℕ) :=
  let tail := tracker.lookbackTail priorGenerated
  let span := tail ++ newTokens
  (range newTokens.length).findM? fun offset => tracker.isEosFromTokens (span.take (tail.length + offset + 1))

end EOSTracker

inductive GenerationStatus where
  | active
  | endOfSequence
  | maximumLength
  | cancelled
  deriving DecidableEq, Repr

/-- `FUTURE_TOKEN`: the placeholder of a token that is still being computed. -/
def futureToken : ℤ := -999

/-- What `update` and `reset` read and write of a context; the grammar matcher is left out, it reads the token only. -/
structure TextContext where
  tokens : TokenBuffer
  maxLength : ℤ
  eosTracker : EOSTracker
  status : GenerationStatus
  isInitialPrompt : Bool

namespace TextContext

def new (prompt : List ℤ) (maxLength : ℤ) (eosTracker : EOSTracker) : TextContext :=
  ⟨.initial prompt, maxLength, eosTracker, .active, true⟩

variable (ctx : TextContext)

/-- `advance_token_buffer`, which is `update` but for the grammar. -/
def update (newToken : ℤ) : Except String TextContext :=
  if ctx.tokens.activelyChunked then do
    let tokens ← ctx.tokens.advanceChunk
    return { ctx with tokens }
  else if ctx.tokens.all.getLast? = some futureToken then
    .error "Cannot append a token after a future token."
  else do
    let tokens ← ctx.tokens.advanceWithToken newToken
    let isEos ← if newToken ≠ futureToken then ctx.eosTracker.isEosFromTokens tokens.generated
      else pure false
    let status := if isEos then .endOfSequence
      else if tokens.currentPosition ≥ ctx.maxLength then .maximumLength
      else ctx.status
    return { ctx with tokens, status, isInitialPrompt := false }

def hasPendingFutureToken : Bool :=
  ctx.tokens.generatedLength > 0 && ctx.tokens.all.getLast? = some futureToken

/-- `reset`: the scheduler calls it when it preempts the request. -/
def reset : Except String TextContext := do
  let tokens ← ctx.tokens.resetAsNewPrompt ctx.hasPendingFutureToken
  return { ctx with tokens, isInitialPrompt := true }

/-- What happens to the request before a token. -/
def preempt (preempted : Bool) : Except String TextContext := if preempted then ctx.reset else .ok ctx

end TextContext

/-- Feed the stream, with a reset before token `i` when `resets i`: the first token with the status `END_OF_SEQUENCE`.
    -/
def firstStop (resets : ℕ → Bool) : ℕ → TextContext → List ℤ → Except String (Option ℕ)
  | _, _, [] => .ok none
  | i, ctx, token :: stream => do
    let ctx ← ctx.preempt (resets i)
    let ctx ← ctx.update token
    if ctx.status = .endOfSequence then return some i
    firstStop resets (i + 1) ctx stream

/-- Between two tokens, with `gen` counted as generated and `n` tokens in all. -/
structure Generating (tracker : EOSTracker) (maxLength : ℤ) (gen : List ℤ) (n : ℕ) (ctx : TextContext) : Prop where
  sound : ctx.tokens.Sound
  uncut : ctx.tokens.activelyChunked = false
  offset : ctx.tokens.processingOffset = 0
  completion : ctx.tokens.completionRange.start ≤ ctx.tokens.completionRange.stop
  generated : ctx.tokens.generated = gen
  length_eq : ctx.tokens.all.length = n
  realized : ctx.tokens.all.getLast? ≠ some futureToken
  tracker_eq : ctx.eosTracker = tracker
  maxLength_eq : ctx.maxLength = maxLength
  active : ctx.status = .active

variable {tracker : EOSTracker} {maxLength : ℤ} {gen stream : List ℤ} {n : ℕ} {ctx : TextContext} {token : ℤ}
  {resets : ℕ → Bool}

theorem generating_new {prompt : List ℤ} (hne : prompt ≠ []) (hlast : prompt.getLast? ≠ some futureToken) :
    Generating tracker maxLength [] prompt.length (.new prompt maxLength tracker) where
  sound := initial_sound hne
  uncut := rfl
  offset := rfl
  completion := le_rfl
  generated := List.drop_length
  length_eq := rfl
  realized := hlast
  tracker_eq := rfl
  maxLength_eq := rfl
  active := rfl

theorem Generating.reset (h : Generating tracker maxLength gen n ctx) :
    ∃ ctx', ctx.reset = .ok ctx' ∧ Generating tracker maxLength [] n ctx' := by
  have hpending : ctx.hasPendingFutureToken = false := by
    simp [TextContext.hasPendingFutureToken, h.realized]
  have hstop := h.sound.stop_le
  have hreset : ctx.tokens.resetAsNewPrompt false = .ok { ctx.tokens with
      processingRange := ⟨0, ctx.tokens.all.length⟩
      completionRange := ⟨ctx.tokens.all.length, ctx.tokens.all.length⟩
      promptLength := ctx.tokens.all.length
      activelyChunked := false } := by
    rw [resetAsNewPrompt, if_neg (by omega), if_neg (by simp)]
    rfl
  have hsound := h.sound.resetAsNewPrompt hreset h.offset
  refine ⟨_, by rw [TextContext.reset, hpending, hreset]; rfl, ?_⟩
  exact ⟨hsound, rfl, h.offset, le_rfl, drop_length, h.length_eq, h.realized, h.tracker_eq, h.maxLength_eq, h.active⟩

/-- A token below the maximal length: the status is the verdict of the tracker on what is generated. -/
theorem Generating.update (h : Generating tracker maxLength gen n ctx) (htoken : token ≠ futureToken)
    (hlen : (n : ℤ) + 1 < maxLength) : ∃ ctx', ctx.update token = .ok ctx' ∧
      if tracker.stops (gen ++ [token]) token then ctx'.status = .endOfSequence
      else Generating tracker maxLength (gen ++ [token]) (n + 1) ctx' := by
  have hpush : ctx.tokens.advanceWithToken token = .ok (ctx.tokens.pushed token) :=
    advanceWithToken_eq h.uncut (h.completion.trans (Nat.le_succ _))
  have hgen : (ctx.tokens.pushed token).generated = gen ++ [token] := by
    rw [← h.generated, TokenBuffer.generated, TokenBuffer.generated]
    exact drop_append_of_le_length h.sound.prompt_le
  have heos : tracker.isEosFromTokens (gen ++ [token]) = .ok (tracker.stops (gen ++ [token]) token) := by
    rw [EOSTracker.isEosFromTokens, getLast?_concat]
  have hpos : ¬ (ctx.tokens.pushed token).currentPosition ≥ ctx.maxLength := by
    have hstop := h.sound.uncut h.uncut
    have hn := h.length_eq
    rw [h.maxLength_eq, currentPosition, processedLength, activeLength, Range.length]
    dsimp only
    omega
  refine ⟨_, by
    rw [TextContext.update, if_neg (by simp [h.uncut]), if_neg h.realized, hpush]
    show (do
      let isEos ← if token ≠ futureToken then
        ctx.eosTracker.isEosFromTokens (ctx.tokens.pushed token).generated else pure false
      _ : Except String TextContext) = _
    rw [if_pos htoken, hgen, h.tracker_eq, heos]
    rfl, ?_⟩
  cases hstops : tracker.stops (gen ++ [token]) token with
  | true => simp
  | false =>
    simp only [Bool.false_eq_true, if_false, if_neg hpos]
    exact ⟨h.sound.advanceWithToken hpush, h.uncut, rfl, h.completion.trans (Nat.le_succ _), hgen,
      by simp [h.length_eq], by simpa using htoken, rfl, h.maxLength_eq, h.active⟩

/-- Where the tokens counted as generated begin once `i` tokens are fed. -/
def since (resets : ℕ → Bool) : ℕ → ℕ
  | 0 => 0
  | i + 1 => if resets i then i else since resets i

theorem since_le (resets : ℕ → Bool) (i : ℕ) : since resets i ≤ i := by
  induction i with
  | zero => exact le_rfl
  | succ i ih =>
    rw [since]
    split_ifs
    · exact Nat.le_succ i
    · exact ih.trans (Nat.le_succ i)

/-- Whether the tracker stops at token `k`, on what is counted as generated there. -/
def stopsAt (tracker : EOSTracker) (resets : ℕ → Bool) (stream : List ℤ) (k : ℕ) : Bool :=
  match stream[k]? with
  | none => false
  | some token => tracker.stops ((stream.take (k + 1)).drop (since resets (k + 1))) token

theorem generated_succ (resets : ℕ → Bool) (fed : List ℤ) (token : ℤ) :
    (if resets fed.length then [] else fed.drop (since resets fed.length)) ++ [token] =
      (fed ++ [token]).drop (since resets (fed.length + 1)) := by
  rw [since]
  split_ifs
  · rw [drop_left]
    rfl
  · rw [drop_append_of_le_length (since_le _ _)]

/-- The run stops at the first token where the tracker stops, and raises nothing. -/
theorem firstStop_eq (resets : ℕ → Bool) (stream : List ℤ) : ∀ (fed : List ℤ) (n : ℕ) (ctx : TextContext),
    Generating tracker maxLength (fed.drop (since resets fed.length)) n ctx →
    (n : ℤ) + stream.length < maxLength → (∀ token ∈ stream, token ≠ futureToken) →
    firstStop resets fed.length ctx stream = .ok ((range' fed.length stream.length).find?
      (stopsAt tracker resets (fed ++ stream))) := by
  induction stream with
  | nil =>
    intro fed n ctx _ _ _
    rfl
  | cons token stream ih =>
    intro fed n ctx h hlen hreal
    rw [length_cons] at hlen
    obtain ⟨htoken, hrest⟩ := forall_mem_cons.mp hreal
    -- the reset, when there is one
    obtain ⟨ctx1, hreset, h1⟩ : ∃ ctx1, ctx.preempt (resets fed.length) = .ok ctx1 ∧ Generating tracker maxLength
          (if resets fed.length then [] else fed.drop (since resets fed.length)) n ctx1 := by
      cases resets fed.length with
      | true => exact h.reset
      | false => exact ⟨ctx, rfl, h⟩
    obtain ⟨ctx2, hupdate, h2⟩ := h1.update htoken (by omega)
    rw [generated_succ] at h2
    have hhere : stopsAt tracker resets (fed ++ token :: stream) fed.length =
        tracker.stops ((fed ++ [token]).drop (since resets (fed.length + 1))) token := by
      have htake : (fed ++ token :: stream).take (fed.length + 1) = fed ++ [token] := by
        simp [take_append]
      rw [stopsAt, htake, getElem?_append_right le_rfl, Nat.sub_self]
      rfl
    have hrun : firstStop resets fed.length ctx (token :: stream) =
        if ctx2.status = .endOfSequence then .ok (some fed.length)
        else firstStop resets (fed.length + 1) ctx2 stream := by
      rw [firstStop, hreset]
      show (do
        let ctx ← ctx1.update token
        _ : Except String (Option ℕ)) = _
      rw [hupdate]
      rfl
    rw [hrun, length_cons, range'_succ, find?_cons, hhere]
    cases hstops : tracker.stops ((fed ++ [token]).drop (since resets (fed.length + 1))) token with
    | true =>
      rw [hstops, if_pos rfl] at h2
      rw [if_pos h2]
    | false =>
      rw [hstops, if_neg (by simp)] at h2
      have hact : ctx2.status ≠ .endOfSequence := by
        rw [h2.active]
        decide
      have hnext := ih (fed ++ [token]) (n + 1) ctx2 (by simpa using h2) (by omega) hrest
      rw [if_neg hact]
      simpa using hnext

theorem find?_eq_iff_of_imp {α : Type} {p q : α → Bool} (hpq : ∀ a, p a = true → q a = true) (l : List α) :
    l.find? p = l.find? q ↔ ∀ a, l.find? q = some a → p a = true := by
  induction l with
  | nil => simp
  | cons a l ih =>
    rw [find?_cons, find?_cons]
    cases hp : p a with
    | true => simp [hpq a hp, hp]
    | false =>
      cases hq : q a with
      | true =>
        refine iff_of_false (fun heq => ?_) (by simp [hp])
        rw [find?_some heq] at hp
        cases hp
      | false => exact ih

theorem stops_iff {tracker : EOSTracker} {l : List ℤ} {last : ℤ} :
    tracker.stops l last = true ↔ last ∈ tracker.eosTokenIds ∨ ∃ eos ∈ tracker.eosSequences, eos <:+ l := by
  simp only [EOSTracker.stops, Bool.or_eq_true, decide_eq_true_eq, any_eq_true, Bool.and_eq_true]
  refine or_congr_right (exists_congr fun eos => and_congr_right fun _ => ?_)
  rw [suffix_iff_eq_drop, eq_comm]
  refine and_iff_right_of_imp fun heq => ?_
  have := congrArg length heq
  rw [length_drop] at this
  omega

theorem findM?_ok {α ε : Type} {p : α → Except ε Bool} {q : α → Bool} : ∀ {l : List α}, (∀ a ∈ l, p a = .ok (q a)) →
    l.findM? p = .ok (l.find? q)
  | [], _ => rfl
  | a :: l, h => by
    obtain ⟨ha, hl⟩ := forall_mem_cons.mp h
    rw [findM?, ha, find?_cons]
    cases q a with
    | true => rfl
    | false => exact findM?_ok hl

namespace EOSTracker

variable (tracker : EOSTracker)

theorem isEosFromTokens_append (l : List ℤ) {new : List ℤ} (hnew : new ≠ []) :
    tracker.isEosFromTokens (l ++ new) = .ok (tracker.stops (l ++ new) (new.getLast hnew)) := by
  rw [isEosFromTokens, getLast?_append_of_ne_nil _ hnew, getLast?_eq_some_getLast hnew]

/-- The tail is all of the history, or as long as a sequence without its last token. -/
theorem lookbackTail_spec (prior : List ℤ) : tracker.lookbackTail prior <:+ prior ∧
    (tracker.lookbackTail prior = prior ∨ tracker.maxEosSeqLen ≤ (tracker.lookbackTail prior).length + 1) := by
  rw [lookbackTail, eosSequenceLookback]
  split_ifs with hzero
  · exact ⟨nil_suffix, .inr (by omega)⟩
  refine ⟨drop_suffix _ _, ?_⟩
  rcases Nat.eq_zero_or_pos (prior.length - (tracker.maxEosSeqLen - 1 : ℤ)).toNat with hall | hcut
  · exact .inl (by rw [hall, drop_zero])
  · exact .inr (by rw [length_drop]; omega)

theorem isEosFromTokens_tail (prior : List ℤ) {new : List ℤ} (hnew : new ≠ []) :
    tracker.isEosFromTokens (tracker.lookbackTail prior ++ new) = tracker.isEosFromTokens (prior ++ new) := by
  obtain ⟨hsuf, hlong⟩ := tracker.lookbackTail_spec prior
  have hspan : tracker.lookbackTail prior ++ new <:+ prior ++ new := by
    obtain ⟨front, hfront⟩ := hsuf
    exact ⟨front, by rw [← append_assoc, hfront]⟩
  have hpos := length_pos_iff.mpr hnew
  rw [isEosFromTokens_append _ _ hnew, isEosFromTokens_append _ _ hnew, Except.ok.injEq, Bool.eq_iff_iff, stops_iff,
    stops_iff]
  refine or_congr_right (exists_congr fun eos => and_congr_right fun heos => ⟨fun h => h.trans hspan, fun h => ?_⟩)
  rcases hlong with hall | hlong
  · rwa [hall]
  · have hle : eos.length ≤ tracker.maxEosSeqLen := by
      rw [maxEosSeqLen, if_neg (ne_nil_of_mem heos)]
      exact le_max_of_le (mem_map_of_mem heos) le_rfl
    exact suffix_of_suffix_length_le h hspan (by rw [length_append]; omega)

/-- **A committed span** ends where one-token decoding ends: at the first offset whose token stops the whole history
    with the span up to it. -/
theorem firstEosOffset_least (priorGenerated newTokens : List ℤ) :
    ∃ offset, tracker.firstEosOffset priorGenerated newTokens = .ok offset ∧ ∀ i, offset = some i ↔ IsLeast
      {i | i < newTokens.length ∧ tracker.isEosFromTokens (priorGenerated ++ newTokens.take (i + 1)) = .ok true} i := by
  have htest : ∀ i ∈ range newTokens.length, tracker.isEosFromTokens ((tracker.lookbackTail priorGenerated ++
      newTokens).take ((tracker.lookbackTail priorGenerated).length + i + 1)) =
        .ok (decide (tracker.isEosFromTokens (priorGenerated ++ newTokens.take (i + 1)) = .ok true)) := by
    intro i hi
    have hlt := mem_range.mp hi
    have hnew : newTokens.take (i + 1) ≠ [] := ne_nil_of_length_pos (by rw [length_take]; omega)
    rw [Nat.add_assoc, take_length_add_append, isEosFromTokens_tail _ _ hnew, isEosFromTokens_append _ _ hnew]
    simp
  refine ⟨_, findM?_ok htest, fun i => ?_⟩
  rw [find?_range_eq_some]
  simp only [decide_eq_true_eq, mem_range, Bool.not_eq_true', decide_eq_false_iff_not]
  constructor
  · rintro ⟨hhere, hi, hbefore⟩
    exact ⟨⟨hi, hhere⟩, fun j hj => Nat.le_of_not_lt fun hlt => hbefore j hlt hj.2⟩
  · rintro ⟨⟨hi, hhere⟩, hleast⟩
    exact ⟨hhere, hi, fun j hj h => Nat.not_le_of_lt hj (hleast ⟨hj.trans hi, h⟩)⟩

section StopStrings

variable (stops : List (List Char))

def maxStopLength : ℕ := (stops.map length).foldr max 0

/-- The cut of the continuation tail; in Python `tail[-0:]` is all of it. -/
def cutTail (tail : List Char) : List Char :=
  if tail.length > 8 * maxStopLength stops ∧ maxStopLength stops ≠ 0 then
    tail.drop (tail.length - maxStopLength stops)
  else tail

/-- A round of the loop over the stop strings, with the best position and match so far. -/
def better (tail : List Char) : ℕ × Option (List Char) → List Char → ℕ × Option (List Char)
  | (bestPos, best), s =>
    match tail.tails.findIdx? s.isPrefixOf with
    | some pos => if pos < bestPos then (pos, some s) else (bestPos, best)
    | none => (bestPos, best)

/-- `is_eos_from_string`: the continuation tail and the match. -/
def isEosFromString (tail piece : List Char) : List Char × Option (List Char) :=
  if stops = [] then (tail, none)
  else
    let tail := cutTail stops (tail ++ piece)
    (tail, (stops.foldl (better tail) (tail.length, none)).2)

def tailAfter (pieces : List (List Char)) : List Char :=
  pieces.foldl (fun tail piece => (isEosFromString stops tail piece).1) []

variable {stops} {tail : List Char}

/-- `str.find` finds a string in the text, and starts it before the end. -/
theorem findIdx?_tails {s : List Char} (hs : s ≠ []) (tail : List Char) :
    (tail.tails.findIdx? s.isPrefixOf = none ∧ ¬ s <:+: tail) ∨
      ∃ pos < tail.length, tail.tails.findIdx? s.isPrefixOf = some pos ∧ s <:+: tail := by
  have hmem : s <:+: tail ↔ ∃ t ∈ tail.tails, s.isPrefixOf t = true := by
    simp [infix_iff_prefix_suffix, and_comm]
  cases hfind : tail.tails.findIdx? s.isPrefixOf with
  | none =>
    refine .inl ⟨rfl, fun h => ?_⟩
    obtain ⟨t, ht, hp⟩ := hmem.mp h
    simp [findIdx?_eq_none_iff.mp hfind t ht] at hp
  | some pos =>
    obtain ⟨hpos, hpre, -⟩ := findIdx?_eq_some_iff_getElem.mp hfind
    refine .inr ⟨pos, ?_, rfl, hmem.mpr ⟨_, getElem_mem hpos, hpre⟩⟩
    by_contra hge
    rw [getElem_tails, isPrefixOf_iff_prefix, drop_eq_nil_of_le (not_lt.mp hge)] at hpre
    exact hs (prefix_nil.mp hpre)

theorem better_isSome (hne : ∀ s ∈ stops, s ≠ []) {acc : ℕ × Option (List Char)}
    (hacc : acc.2 = none → acc.1 = tail.length) :
    (stops.foldl (better tail) acc).2.isSome ↔ acc.2.isSome ∨ ∃ s ∈ stops, s <:+: tail := by
  induction stops generalizing acc with
  | nil => simp
  | cons s stops ih =>
    obtain ⟨hs, hne⟩ := forall_mem_cons.mp hne
    rcases acc with ⟨bestPos, best⟩
    rcases findIdx?_tails hs tail with ⟨hfind, hnot⟩ | ⟨pos, hlt, hfind, hin⟩
    · simp [better, hfind, hnot, ih hne hacc]
    · have hsome : (better tail (bestPos, best) s).2.isSome = true := by
        cases best with
        | none => simp [better, hfind, show bestPos = tail.length from hacc rfl, hlt]
        | some s' =>
          simp only [better, hfind]
          split_ifs <;> rfl
      rw [foldl_cons, ih hne fun h => by simp [h] at hsome]
      simp [hsome, hin]

theorem tailAfter_eq (hstops : stops ≠ []) (pieces : List (List Char))
    (h : pieces.flatten.length ≤ 8 * maxStopLength stops) : tailAfter stops pieces = pieces.flatten := by
  induction pieces using reverseRecOn with
  | nil => rfl
  | append_singleton pieces piece ih =>
    rw [flatten_concat] at h ⊢
    rw [tailAfter, foldl_concat, ← tailAfter, ih (by rw [length_append] at h; omega), isEosFromString, if_neg hstops]
    exact if_neg (by omega)

end StopStrings

end EOSTracker

theorem lt_length_of_stopsAt {k : ℕ} (h : stopsAt tracker resets stream k = true) : k < stream.length := by
  by_contra hk
  rw [stopsAt, getElem?_eq_none (Nat.le_of_not_lt hk)] at h
  cases h

/-- Token `k` is the first to end the stream: its id is a stop id, or it completes a stop sequence. -/
structure EndsAt (tracker : EOSTracker) (stream : List ℤ) (k : ℕ) : Prop where
  here : stopsAt tracker (fun _ => false) stream k = true
  before : ∀ j < k, stopsAt tracker (fun _ => false) stream j = false

/-- The stop at token `k` is a stop id, or a stop sequence that no reset cut. -/
def Uncut (tracker : EOSTracker) (resets : ℕ → Bool) (stream : List ℤ) (k : ℕ) : Prop :=
  (∃ token ∈ stream[k]?, token ∈ tracker.eosTokenIds) ∨
    ∃ eos ∈ tracker.eosSequences, eos <:+ stream.take (k + 1) ∧ eos.length + since resets (k + 1) ≤ k + 1

theorem stopsAt_iff_uncut {k : ℕ} (hk : k < stream.length) :
    stopsAt tracker resets stream k = true ↔ Uncut tracker resets stream k := by
  have hlen : (stream.take (k + 1)).length = k + 1 := by
    rw [length_take]
    omega
  have hsuf : ∀ eos : List ℤ, eos <:+ (stream.take (k + 1)).drop (since resets (k + 1)) ↔
      eos <:+ stream.take (k + 1) ∧ eos.length + since resets (k + 1) ≤ k + 1 := by
    intro eos
    have hsince := since_le resets (k + 1)
    constructor
    · intro h
      have := h.length_le
      rw [length_drop, hlen] at this
      exact ⟨h.trans (drop_suffix _ _), by omega⟩
    · rintro ⟨h, hle⟩
      refine suffix_of_suffix_length_le h (drop_suffix _ _) ?_
      rw [length_drop, hlen]
      omega
  rw [stopsAt, getElem?_eq_getElem hk]
  simp [stops_iff, Uncut, hsuf, getElem?_eq_getElem hk, Option.some.injEq]

theorem stopsAt_of_reset {k : ℕ} (h : stopsAt tracker resets stream k = true) :
    stopsAt tracker (fun _ => false) stream k = true := by
  have hnever : ∀ i, since (fun _ => false) i = 0 := by
    intro i
    induction i with
    | zero => rfl
    | succ i ih => rw [since, if_neg (by simp), ih]
  have hk := lt_length_of_stopsAt h
  rw [stopsAt_iff_uncut hk] at h ⊢
  refine h.imp_right ?_
  rintro ⟨eos, hmem, hsuf, hle⟩
  exact ⟨eos, hmem, hsuf, by rw [hnever]; omega⟩

/-- The first stop is the same with and without the resets exactly when the stop is a single id or a
    stop sequence of which no token was generated before the last reset. -/
theorem first_stop_unmoved_iff (tracker : EOSTracker) (prompt stream : List ℤ) (resets : ℕ → Bool)
    (maxLength : ℤ) (hne : prompt ≠ []) (hlast : prompt.getLast? ≠ some futureToken)
    (hlen : (prompt.length : ℤ) + stream.length < maxLength) (hreal : ∀ token ∈ stream, token ≠ futureToken) :
    ∃ stop stop', firstStop (fun _ => false) 0 (.new prompt maxLength tracker) stream = .ok stop ∧
      firstStop resets 0 (.new prompt maxLength tracker) stream = .ok stop' ∧
      (stop' = stop ↔ ∀ k, EndsAt tracker stream k → Uncut tracker resets stream k) := by
  have hrun := fun resets : ℕ → Bool => firstStop_eq resets stream [] prompt.length
    (.new prompt maxLength tracker) (generating_new hne hlast) hlen hreal
  refine ⟨_, _, hrun _, hrun resets, ?_⟩
  simp only [length_nil, nil_append, ← range_eq_range']
  rw [find?_eq_iff_of_imp fun k => stopsAt_of_reset]
  refine forall_congr' fun k => ?_
  simp only [find?_range_eq_some, Bool.not_eq_true']
  constructor
  · rintro hsame ⟨hhere, hbefore⟩
    have hk := lt_length_of_stopsAt hhere
    exact (stopsAt_iff_uncut hk).mp (hsame ⟨hhere, mem_range.mpr hk, hbefore⟩)
  · rintro huncut ⟨hhere, hk, hbefore⟩
    exact (stopsAt_iff_uncut (mem_range.mp hk)).mpr (huncut ⟨hhere, hbefore⟩)

/-- A reset between two occurrences moves nothing: the sequence is matched after it. -/
theorem first_stop_unmoved_iff_between : Uncut ⟨[], [[5, 6]]⟩ (fun i => i == 1) [4, 5, 6] 2 ∧
    firstStop (fun _ => false) 0 (.new [1] 8 ⟨[], [[5, 6]]⟩) [4, 5, 6] =
      firstStop (fun i => i == 1) 0 (.new [1] 8 ⟨[], [[5, 6]]⟩) [4, 5, 6] := by
  have huncut : Uncut ⟨[], [[5, 6]]⟩ (fun i => i == 1) [4, 5, 6] 2 := .inr ⟨[5, 6], by decide, by decide, by decide⟩
  refine ⟨huncut, ?_⟩
  obtain ⟨stop, stop', hplain, hreset, hiff⟩ := first_stop_unmoved_iff ⟨[], [[5, 6]]⟩ [1] [4, 5, 6]
    (fun i => i == 1) 8 (by decide) (by decide) (by decide) (by decide)
  rw [hplain, hreset, hiff.mpr]
  intro k hends
  have hk := lt_length_of_stopsAt hends.here
  have hhere := hends.here
  match k, hk with
  | 0, _ => cases hhere
  | 1, _ => cases hhere
  | 2, _ => exact huncut

/-- A preemption between the two tokens of a stop sequence: the request generates past it. -/
theorem reset_hides_stop : firstStop (fun _ => false) 0 (.new [1] 8 ⟨[], [[5, 6]]⟩) [5, 6] = .ok (some 1) ∧
    firstStop (fun i => i == 1) 0 (.new [1] 8 ⟨[], [[5, 6]]⟩) [5, 6] = .ok none := by
  decide +kernel

end MojoProse.Pipelines
