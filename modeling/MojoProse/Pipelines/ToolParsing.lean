import Mathlib.Data.List.Infix
import Mathlib.Data.Nat.Find

/-! The content that `StructuralTagToolParser` streams (`tool_parsing.py`): the text in front of the first tool marker. -/

namespace MojoProse.Pipelines.ToolParsing

open List Option

def find (sub text : List Char) : Option ℕ := text.tails.findIdx? sub.isPrefixOf

/-- `partial_tag_overlap`: the loop tries the longest overlap first. -/
def partialTagOverlap (text tag : List Char) : ℕ :=
  (min text.length (tag.length - 1)).findGreatest fun i => text.drop (text.length - i) = tag.take i

/-- A delta that `parse_delta` returns: content, or a part of a tool call. -/
inductive ToolCallDelta (τ : Type) where
  | content (text : List Char)
  | call (delta : τ)

/-- The buffer, and `StreamingState`. -/
structure Streaming (σ : Type) where
  buffer : List Char
  sentContentIdx : ℕ
  toolCalls : σ

variable {σ τ ε : Type} (marker : List Char)

def extractContentDelta (s : Streaming σ) (markerPos : Option ℕ) : Streaming σ × Option (List Char) :=
  let sendableIdx := markerPos.getD (s.buffer.length - partialTagOverlap s.buffer marker)
  if sendableIdx > s.sentContentIdx then
    ({ s with sentContentIdx := sendableIdx }, some ((s.buffer.take sendableIdx).drop s.sentContentIdx))
  else (s, none)

/-- `parse_delta`; `calls` is what the hooks of a subclass make of the buffer and what is sent of it, or what they
    raise. -/
def parseDelta (calls : List Char → Option ℕ → σ → Except ε (σ × List τ)) (s : Streaming σ) (delta : List Char) :
    Except ε (Streaming σ × Option (List (ToolCallDelta τ))) := do
  let s := { s with buffer := s.buffer ++ delta }
  let markerPos := find marker s.buffer
  let (s, contentDelta) := extractContentDelta marker s markerPos
  let (toolCalls, sent) ← calls s.buffer markerPos s.toolCalls
  let deltas := contentDelta.toList.map .content ++ sent.map .call
  let hasHoldback := markerPos = none ∧ s.buffer.length > s.sentContentIdx
  return ({ s with toolCalls }, if deltas ≠ [] ∨ markerPos ≠ none ∨ hasHoldback then some deltas else none)

def flush (s : Streaming σ) : Streaming σ × Option (List Char) :=
  if find marker s.buffer ≠ none then (s, none)
  else if s.buffer.length ≤ s.sentContentIdx then (s, none)
  else ({ s with sentContentIdx := s.buffer.length }, some (s.buffer.drop s.sentContentIdx))

/-- The content in what `parse_delta` returns. -/
def contentOf (deltas : Option (List (ToolCallDelta τ))) : List Char :=
  (deltas.getD []).flatMap fun
    | .content text => text
    | .call _ => []

/-- A response in chunks: the state behind it, and the content that was returned. -/
def stream (calls : List Char → Option ℕ → σ → Except ε (σ × List τ)) (s : Streaming σ) (sent : List Char) :
    List (List Char) → Except ε (Streaming σ × List Char)
  | [] => .ok (s, sent)
  | chunk :: chunks => do
    let (s, deltas) ← parseDelta marker calls s chunk
    stream calls s (sent ++ contentOf deltas) chunks

def Raised {α : Type} (calls : List Char → Option ℕ → σ → Except ε (σ × List τ)) (x : Except ε α) : Prop :=
  ∃ e buffer pos toolCalls, calls buffer pos toolCalls = .error e ∧ x = .error e

def contentEnd (text : List Char) : ℕ := (find marker text).getD text.length

variable {marker} {text rest : List Char} {p : ℕ}

theorem find_eq_some_iff : find marker text = some p ↔
    marker <+: text.drop p ∧ p ≤ text.length ∧ ∀ q < p, ¬ marker <+: text.drop q := by
  simp [find, findIdx?_eq_some_iff_getElem, Nat.lt_succ_iff]

theorem find_getD_le (marker : List Char) {n : ℕ} (hn : n ≤ text.length) : (find marker text).getD n ≤ text.length := by
  cases h : find marker text with
  | none => exact hn
  | some p => exact (find_eq_some_iff.mp h).2.1

theorem exists_find {q : ℕ} (h : marker <+: text.drop q) (hq : q ≤ text.length) : ∃ p ≤ q, find marker text = some p := by
  classical
  have hex : ∃ p, marker <+: text.drop p := ⟨q, h⟩
  have hle := Nat.find_min' hex h
  exact ⟨Nat.find hex, hle, find_eq_some_iff.mpr ⟨Nat.find_spec hex, hle.trans hq, fun _ => Nat.find_min hex⟩⟩

variable (marker text rest) in
theorem sendable_le : (find marker text).getD (text.length - partialTagOverlap text marker) ≤
    contentEnd marker (text ++ rest) := by
  have hlen := find_getD_le marker (Nat.sub_le text.length (partialTagOverlap text marker))
  rw [contentEnd]
  cases hrest : find marker (text ++ rest) with
  | none => exact hlen.trans (by simp)
  | some q =>
    by_contra hlt
    have hq : q < text.length := (not_le.mp hlt).trans_le hlen
    have hpre := (find_eq_some_iff.mp hrest).1
    rw [drop_append_of_le_length hq.le] at hpre
    rcases le_or_gt marker.length (text.drop q).length with hle | hgt
    · -- the marker stands in the text itself
      obtain ⟨p, hp, hfind⟩ := exists_find (prefix_of_prefix_length_le hpre (prefix_append _ _) hle) hq.le
      rw [hfind] at hlt
      exact hlt hp
    · -- the end of the text begins the marker, and is held back
      have hpart := prefix_iff_eq_take.mp (prefix_of_prefix_length_le (prefix_append _ _) hpre hgt.le)
      rw [length_drop] at hgt hpart
      refine hlt ?_
      cases hfind : find marker text with
      | none =>
        have hle : text.length - q ≤ partialTagOverlap text marker := Nat.le_findGreatest
          (le_min (Nat.sub_le _ _) (Nat.le_sub_one_of_lt hgt)) (by rwa [Nat.sub_sub_self hq.le])
        show text.length - _ ≤ q
        omega
      | some p =>
        have hp := (find_eq_some_iff.mp hfind).1.length_le
        rw [length_drop] at hp
        show p ≤ q
        omega

/-- The content in front of the cursor was returned; the cursor is in front of every marker, and at one that has come.
    -/
structure Sent (marker : List Char) (s : Streaming σ) (sent : List Char) : Prop where
  content : sent = s.buffer.take s.sentContentIdx
  le : ∀ rest, s.sentContentIdx ≤ contentEnd marker (s.buffer ++ rest)
  found : ∀ p ∈ find marker s.buffer, s.sentContentIdx = p

variable (calls : List Char → Option ℕ → σ → Except ε (σ × List τ)) {s : Streaming σ} {sent : List Char}

theorem Sent.le_length (h : Sent marker s sent) : s.sentContentIdx ≤ s.buffer.length := by
  have hle := h.le []
  rw [append_nil] at hle
  exact hle.trans (find_getD_le _ le_rfl)

theorem Sent.extract (h : Sent marker s sent) (delta : List Char) :
    let s' := extractContentDelta marker { s with buffer := s.buffer ++ delta } (find marker (s.buffer ++ delta))
    Sent marker s'.1 (sent ++ s'.2.getD []) := by
  have hto : sent = (s.buffer ++ delta).take s.sentContentIdx := by
    rw [take_append_of_le_length h.le_length, h.content]
  have hnew : ∀ rest, s.sentContentIdx ≤ contentEnd marker (s.buffer ++ delta ++ rest) := fun rest => by
    rw [append_assoc]
    exact h.le _
  unfold extractContentDelta
  dsimp only
  split_ifs with hgt
  · have hcut : ∀ n > s.sentContentIdx, sent ++ ((s.buffer ++ delta).take n).drop s.sentContentIdx =
        (s.buffer ++ delta).take n := fun n hn => by
      have hn' := take_append_drop s.sentContentIdx ((s.buffer ++ delta).take n)
      rwa [take_take, min_eq_left hn.le, ← hto] at hn'
    refine ⟨hcut _ hgt, sendable_le marker _, fun p hp => ?_⟩
    · rw [mem_def.mp hp, getD_some]
  · refine ⟨by simpa using hto, hnew, fun p hp => le_antisymm ?_ ?_⟩
    · have hle := hnew []
      rwa [append_nil, contentEnd, mem_def.mp hp] at hle
    · rw [mem_def.mp hp] at hgt
      exact not_lt.mp hgt

theorem contentOf_deltas (content : Option (List Char)) (sent : List τ) (p : Prop) [Decidable p] :
    let deltas : List (ToolCallDelta τ) := content.toList.map .content ++ sent.map .call
    contentOf (if deltas ≠ [] ∨ p then some deltas else none) = content.getD [] := by
  dsimp only
  split_ifs with hdeltas
  · cases content <;> simp [contentOf]
  · cases content <;> simp_all [contentOf]

theorem Sent.parseDelta (h : Sent marker s sent) (delta : List Char) :
    (∃ s' deltas, parseDelta marker calls s delta = .ok (s', deltas) ∧ s'.buffer = s.buffer ++ delta ∧
      Sent marker s' (sent ++ contentOf deltas)) ∨ Raised calls (parseDelta marker calls s delta) := by
  have hsent := h.extract delta
  have hbuffer : (extractContentDelta marker { s with buffer := s.buffer ++ delta }
      (find marker (s.buffer ++ delta))).1.buffer = s.buffer ++ delta := by
    rw [extractContentDelta]
    split_ifs <;> rfl
  dsimp only [ToolParsing.parseDelta] at hsent ⊢
  generalize extractContentDelta marker _ _ = extracted at hsent hbuffer ⊢
  cases hcalls : calls extracted.1.buffer (find marker (s.buffer ++ delta)) extracted.1.toolCalls with
  | error e => exact .inr ⟨e, _, _, _, hcalls, rfl⟩
  | ok r =>
    refine .inl ⟨_, _, rfl, hbuffer, ?_⟩
    rw [contentOf_deltas]
    exact ⟨hsent.content, hsent.le, hsent.found⟩

theorem Sent.stream (h : Sent marker s sent) (chunks : List (List Char)) :
    (∃ s' sent', stream marker calls s sent chunks = .ok (s', sent') ∧ s'.buffer = s.buffer ++ chunks.flatten ∧
      Sent marker s' sent') ∨ Raised calls (stream marker calls s sent chunks) := by
  induction chunks generalizing s sent with
  | nil => exact .inl ⟨s, sent, rfl, (append_nil _).symm, h⟩
  | cons chunk chunks ih =>
    rw [ToolParsing.stream]
    rcases h.parseDelta calls chunk with ⟨s', deltas, hrun, hbuffer, hsent⟩ | ⟨e, buffer, pos, toolCalls, hcalls, hrun⟩
    · rw [hrun, flatten_cons, ← append_assoc, ← hbuffer]
      exact ih hsent
    · rw [hrun]
      exact .inr ⟨e, buffer, pos, toolCalls, hcalls, rfl⟩

variable (marker) in
/-- Whatever the chunks of a response, the content streamed is the text in front of the first marker; only what a hook
    raises stops a stream. -/
theorem streamed_content (toolCalls : σ) (chunks : List (List Char)) :
    (∃ s sent, stream marker calls ⟨[], 0, toolCalls⟩ [] chunks = .ok (s, sent) ∧
      sent ++ (flush marker s).2.getD [] = chunks.flatten.take (contentEnd marker chunks.flatten)) ∨
    Raised calls (stream marker calls ⟨[], 0, toolCalls⟩ [] chunks) := by
  have hstart : Sent marker (⟨[], 0, toolCalls⟩ : Streaming σ) [] :=
    ⟨rfl, fun _ => Nat.zero_le _, fun p hp => (Nat.le_zero.mp (find_eq_some_iff.mp hp).2.1).symm⟩
  refine (hstart.stream calls chunks).imp_left ?_
  rintro ⟨s, sent, hrun, hbuffer, hsent⟩
  refine ⟨s, sent, hrun, ?_⟩
  rw [nil_append] at hbuffer
  rw [← hbuffer, contentEnd, hsent.content, flush]
  cases hfind : find marker s.buffer with
  | none =>
    rw [if_neg (by simp), getD_none, take_length]
    split_ifs with hle
    · simpa using hle
    · exact take_append_drop _ _
  | some p => simp [hsent.found p hfind]

end MojoProse.Pipelines.ToolParsing
