import Mathlib.Data.Int.Notation
import Mathlib.Data.List.Basic
import Mathlib.Data.List.TakeWhile
import Mathlib.Tactic.Common

/-! `KimiK2_5ReasoningParser.stream` and the serving loop that threads `is_still_reasoning` between the
    chunks of a token stream. -/

namespace MojoProse.Pipelines

open List

/-- The parser's token ids. The delimiters are different tokens of the vocabulary. -/
structure KimiReasoningParser where
  thinkStartTokenId : ℤ
  thinkEndTokenId : ℤ
  toolSectionStartTokenId : Option ℤ
  start_ne_end : thinkStartTokenId ≠ thinkEndTokenId
  start_ne_tool : toolSectionStartTokenId ≠ some thinkStartTokenId

/-- `ReasoningSpan`: two slices of a chunk, `[start, end)`. -/
structure ReasoningSpan where
  reasoningWithDelimiters : ℕ × ℕ
  reasoning : ℕ × ℕ

/-- `ParsedReasoningDelta`. -/
structure ParsedReasoningDelta where
  span : ReasoningSpan
  isStillReasoning : Bool

def ReasoningSpan.extractContent (span : ReasoningSpan) (seq : List ℤ) : List ℤ :=
  seq.take span.reasoningWithDelimiters.1 ++ seq.drop span.reasoningWithDelimiters.2

def ReasoningSpan.extractReasoning (span : ReasoningSpan) (seq : List ℤ) : List ℤ :=
  (seq.take span.reasoning.2).drop span.reasoning.1

namespace KimiReasoningParser

def endTokenIds (p : KimiReasoningParser) : List ℤ :=
  match p.toolSectionStartTokenId with
  | some tool => [p.thinkEndTokenId, tool]
  | none => [p.thinkEndTokenId]

/-- The loop of `stream` from index `i` on: `start_token_idx` and `end_token_idx`. -/
def scan (p : KimiReasoningParser) (isCurrentlyReasoning : Bool) : ℕ → Option ℕ → List ℤ → Option ℕ × Option ℕ
  | _, startTokenIdx, [] => (startTokenIdx, none)
  | i, startTokenIdx, tokenId :: rest =>
    if startTokenIdx = none ∧ tokenId = p.thinkStartTokenId then scan p isCurrentlyReasoning (i + 1) (some i) rest
    else if tokenId ∈ p.endTokenIds ∧ (isCurrentlyReasoning ∨ startTokenIdx ≠ none) then (startTokenIdx, some i)
    else scan p isCurrentlyReasoning (i + 1) startTokenIdx rest

def stream (p : KimiReasoningParser) (deltaTokenIds : List ℤ) (isCurrentlyReasoning : Bool) : ParsedReasoningDelta :=
  let (startTokenIdx, endTokenIdx) := p.scan isCurrentlyReasoning 0 none deltaTokenIds
  if startTokenIdx = none ∧ !isCurrentlyReasoning then ⟨⟨(0, 0), (0, 0)⟩, false⟩
  else
    let (startDelimited, start) :=
      match startTokenIdx with
      | none => (0, 0)
      | some i => (i, i + 1)
    let (endDelimited, stop) :=
      match endTokenIdx with
      | none => (deltaTokenIds.length, deltaTokenIds.length)
      | some i => if deltaTokenIds[i]? = some p.thinkEndTokenId then (i + 1, i) else (i, i)
    ⟨⟨(startDelimited, endDelimited), (start, stop)⟩, endTokenIdx.isNone⟩

/-- What the serving loop has sent, and the bit it carries to the next chunk. -/
@[ext] structure Served where
  reasoning : List ℤ
  content : List ℤ
  isStillReasoning : Bool
  deriving DecidableEq

def serve (p : KimiReasoningParser) (s : Served) (tokens : List ℤ) : Served :=
  let parsed := p.stream tokens s.isStillReasoning
  ⟨s.reasoning ++ parsed.span.extractReasoning tokens, s.content ++ parsed.span.extractContent tokens,
    parsed.isStillReasoning⟩

def generate (p : KimiReasoningParser) (isStillReasoning : Bool) (chunks : List (List ℤ)) : Served :=
  chunks.foldl p.serve ⟨[], [], isStillReasoning⟩

/-- The tokens behind a span: nothing, or the token that ends it and the content that follows. -/
inductive Closes (p : KimiReasoningParser) : List ℤ → List ℤ → Bool → Prop
  | unclosed : Closes p [] [] true
  | think (post : List ℤ) : Closes p (p.thinkEndTokenId :: post) post false
  | tool (t : ℤ) (post : List ℤ) (ht : t ∈ p.endTokenIds) (hne : t ≠ p.thinkEndTokenId) :
      Closes p (t :: post) (t :: post) false

/-- How `stream` splits a chunk: the chunk, its reasoning, its content and the next bit. -/
inductive Splits (p : KimiReasoningParser) : Bool → List ℤ → List ℤ → List ℤ → Bool → Prop
  | outside (tokens : List ℤ) (h : p.thinkStartTokenId ∉ tokens) : Splits p false tokens [] tokens false
  | opened (r : Bool) (pre body tail content : List ℤ) (still : Bool) (hstart : p.thinkStartTokenId ∉ pre)
      (hpre : r = true → ∀ t ∈ pre, t ∉ p.endTokenIds) (hbody : ∀ t ∈ body, t ∉ p.endTokenIds)
      (h : Closes p tail content still) :
      Splits p r (pre ++ p.thinkStartTokenId :: (body ++ tail)) body (pre ++ content) still
  | inside (body tail content : List ℤ) (still : Bool) (hstart : p.thinkStartTokenId ∉ body)
      (hbody : ∀ t ∈ body, t ∉ p.endTokenIds) (h : Closes p tail content still) :
      Splits p true (body ++ tail) body content still

variable (p : KimiReasoningParser) {content tail : List ℤ} {still : Bool}

theorem thinkEnd_mem : p.thinkEndTokenId ∈ p.endTokenIds := by
  rw [endTokenIds]
  split <;> simp

theorem start_not_mem : p.thinkStartTokenId ∉ p.endTokenIds := by
  have hend := p.start_ne_end
  have htool := p.start_ne_tool
  rw [endTokenIds]
  split
  · rename_i tool h
    rw [h] at htool
    simp only [mem_cons, not_mem_nil, or_false, not_or]
    exact ⟨hend, fun h => htool (h ▸ rfl)⟩
  · simpa using hend

theorem scan_append {r : Bool} (start : Option ℕ) : ∀ (pre rest : List ℤ) (i : ℕ),
    (start = none → p.thinkStartTokenId ∉ pre) → ((r = true ∨ start ≠ none) → ∀ t ∈ pre, t ∉ p.endTokenIds) →
    p.scan r i start (pre ++ rest) = p.scan r (i + pre.length) start rest
  | [], _, _, _, _ => rfl
  | t :: pre, rest, i, hstart, hend => by
    have hopens : ¬(start = none ∧ t = p.thinkStartTokenId) := fun h => hstart h.1 (by simp [h.2])
    have hcloses : ¬(t ∈ p.endTokenIds ∧ (r = true ∨ start ≠ none)) := fun h => hend h.2 t (by simp) h.1
    rw [cons_append, scan, if_neg hopens, if_neg hcloses,
      scan_append start pre rest (i + 1) (fun h hmem => hstart h (by simp [hmem]))
        (fun h t ht => hend h t (by simp [ht])), length_cons]
    congr 1
    omega

theorem exists_first (q : ℤ → Bool) (tokens : List ℤ) :
    ∃ pre tail, tokens = pre ++ tail ∧ (∀ t ∈ pre, q t = false) ∧ ∀ t ∈ tail.head?, q t = true := by
  refine ⟨tokens.takeWhile (!q ·), tokens.dropWhile (!q ·), takeWhile_append_dropWhile.symm,
    fun t ht => by simpa using mem_takeWhile_imp ht, fun t ht => ?_⟩
  have := head?_dropWhile_not (!q ·) tokens
  rw [Option.mem_def.mp ht] at this
  simpa using this

theorem exists_closes {r : Bool} (start : Option ℕ) (hact : r = true ∨ start ≠ none)
    (htail : ∀ t ∈ tail.head?, t ∈ p.endTokenIds) : ∃ content still, Closes p tail content still ∧
      ∀ i, p.scan r i start tail = (start, if still then none else some i) := by
  rcases tail with _ | ⟨t, post⟩
  · exact ⟨[], true, .unclosed, fun _ => rfl⟩
  have ht : t ∈ p.endTokenIds := htail t rfl
  have hscan : ∀ i, p.scan r i start (t :: post) = (start, some i) := fun i => by
    have hopens : ¬(start = none ∧ t = p.thinkStartTokenId) := fun h => p.start_not_mem (h.2 ▸ ht)
    rw [scan, if_neg hopens, if_pos ⟨ht, hact⟩]
  rcases eq_or_ne t p.thinkEndTokenId with rfl | hne
  · exact ⟨post, false, .think post, hscan⟩
  · exact ⟨t :: post, false, .tool t post ht hne, hscan⟩

/-- A chunk whose span begins behind `lead`, and ends at `tail`. -/
theorem Closes.exists_stream (h : Closes p tail content still) {r : Bool} (start : Option ℕ) (lead body : List ℤ)
    (hact : r = true ∨ start ≠ none) (hlead : start.elim 0 (· + 1) = lead.length)
    (hscan : p.scan r 0 none (lead ++ body ++ tail) = (start, if still then none else some (lead ++ body).length)) :
    ∃ d, p.stream (lead ++ body ++ tail) r = ⟨⟨(start.getD 0, d), (lead.length, (lead ++ body).length)⟩, still⟩ ∧
      (lead ++ body ++ tail).drop d = content := by
  have hopen : ¬(start = none ∧ (!r) = true) := by
    rintro ⟨rfl, hr⟩
    simp_all
  rw [stream, hscan, ← hlead]
  generalize lead ++ body = pre
  simp only [if_neg hopen]
  cases h with
  | unclosed => exact ⟨pre.length, by cases start <;> simp, by simp⟩
  | think => exact ⟨pre.length + 1, by cases start <;> simp, by simp⟩
  | tool t post ht hne => exact ⟨pre.length, by cases start <;> simp [hne], by simp⟩

theorem stream_splits (tokens : List ℤ) (r : Bool) :
    Splits p r tokens ((p.stream tokens r).span.extractReasoning tokens)
      ((p.stream tokens r).span.extractContent tokens) (p.stream tokens r).isStillReasoning := by
  obtain ⟨pre, tail, rfl, hpre, htail⟩ :=
    exists_first (fun t => t = p.thinkStartTokenId || (r && t ∈ p.endTokenIds)) tokens
  simp only [Bool.or_eq_false_iff, decide_eq_false_iff_not, Bool.and_eq_false_imp, Bool.or_eq_true,
    decide_eq_true_eq, Bool.and_eq_true] at hpre htail
  have hstart : p.thinkStartTokenId ∉ pre := fun hmem => (hpre _ hmem).1 rfl
  have hends : r = true → ∀ t ∈ pre, t ∉ p.endTokenIds := fun hr t ht => (hpre t ht).2 hr
  have hscan := p.scan_append none pre tail 0 (fun _ => hstart) (by simpa using hends)
  rw [Nat.zero_add] at hscan
  by_cases hhead : tail.head? = some p.thinkStartTokenId
  · obtain ⟨rest, rfl⟩ := head?_eq_some_iff.mp hhead
    obtain ⟨body, tail, rfl, hbody, htail⟩ := exists_first (fun t => t ∈ p.endTokenIds) rest
    simp only [decide_eq_false_iff_not, decide_eq_true_eq] at hbody htail
    obtain ⟨content, still, hcloses, htailscan⟩ := p.exists_closes (some pre.length) (.inr (by simp)) htail
    rw [scan, if_pos ⟨rfl, rfl⟩, p.scan_append _ body tail _ (by simp) (fun _ => hbody), htailscan] at hscan
    have hlist : pre ++ p.thinkStartTokenId :: (body ++ tail) = pre ++ [p.thinkStartTokenId] ++ body ++ tail := by simp
    have hsplits := Splits.opened r pre body tail content still hstart hends hbody hcloses
    rw [hlist] at hscan hsplits ⊢
    obtain ⟨d, hstream, hdrop⟩ := hcloses.exists_stream p (some pre.length) (pre ++ [p.thinkStartTokenId]) body
      (.inr (by simp)) (by simp) (by simpa [Nat.add_assoc, Nat.add_comm 1] using hscan)
    rw [hstream, ReasoningSpan.extractContent, hdrop, ReasoningSpan.extractReasoning, take_left, drop_left]
    simpa using hsplits
  have hend : ∀ t ∈ tail.head?, r = true ∧ t ∈ p.endTokenIds := fun t ht =>
    (htail t ht).resolve_left fun h => hhead (h ▸ ht)
  cases r with
  | false =>
    have hnil : tail = [] := head?_eq_none_iff.mp (Option.eq_none_iff_forall_not_mem.mpr fun t ht =>
      absurd (hend t ht).1 (by simp))
    subst hnil
    have hstream : p.stream (pre ++ []) false = ⟨⟨(0, 0), (0, 0)⟩, false⟩ := by
      rw [stream, hscan]
      rfl
    rw [hstream]
    simpa [ReasoningSpan.extractReasoning, ReasoningSpan.extractContent] using Splits.outside pre hstart
  | true =>
    obtain ⟨content, still, hcloses, htailscan⟩ := p.exists_closes none (.inl rfl) fun t ht => (hend t ht).2
    rw [htailscan] at hscan
    obtain ⟨d, hstream, hdrop⟩ := hcloses.exists_stream p none [] pre (.inl rfl) rfl hscan
    rw [nil_append] at hstream hdrop
    rw [hstream, ReasoningSpan.extractContent, hdrop, ReasoningSpan.extractReasoning, take_left]
    simpa using Splits.inside pre tail content still hstart (hends rfl) hcloses

theorem serve_splits (s : Served) (tokens : List ℤ) : ∃ body rest next, Splits p s.isStillReasoning tokens body rest next ∧
    p.serve s tokens = ⟨s.reasoning ++ body, s.content ++ rest, next⟩ :=
  ⟨_, _, _, p.stream_splits tokens s.isStillReasoning, rfl⟩

def serveToken (p : KimiReasoningParser) (s : Served) (t : ℤ) : Served :=
  if t = p.thinkStartTokenId then { s with isStillReasoning := true }
  else if s.isStillReasoning then
    if t = p.thinkEndTokenId then { s with isStillReasoning := false }
    else if t ∈ p.endTokenIds then { s with content := s.content ++ [t], isStillReasoning := false }
    else { s with reasoning := s.reasoning ++ [t] }
  else { s with content := s.content ++ [t] }

/-- At most one `<think>`, which comes first where the stream begins inside a block. -/
def OneBlock (p : KimiReasoningParser) (r : Bool) (tokens : List ℤ) : Prop :=
  p.thinkStartTokenId ∉ tokens ∨
    ∃ pre post, tokens = pre ++ p.thinkStartTokenId :: post ∧ p.thinkStartTokenId ∉ pre ∧
      p.thinkStartTokenId ∉ post ∧ (r = true → pre = [])

variable {p}

theorem foldl_serveToken_outside : ∀ (tokens : List ℤ) (s : Served), s.isStillReasoning = false →
    p.thinkStartTokenId ∉ tokens → tokens.foldl p.serveToken s = { s with content := s.content ++ tokens }
  | [], s, _, _ => by simp
  | t :: tokens, s, hs, hstart => by
    rw [mem_cons, not_or] at hstart
    obtain ⟨hne, hstart⟩ := hstart
    rw [foldl_cons, serveToken, if_neg (Ne.symm (a := p.thinkStartTokenId) hne), hs, if_neg (by simp),
      foldl_serveToken_outside tokens _ rfl hstart]
    simp

theorem foldl_serveToken_inside : ∀ (tokens : List ℤ) (s : Served), s.isStillReasoning = true →
    p.thinkStartTokenId ∉ tokens → (∀ t ∈ tokens, t ∉ p.endTokenIds) →
    tokens.foldl p.serveToken s = { s with reasoning := s.reasoning ++ tokens }
  | [], s, _, _, _ => by simp
  | t :: tokens, s, hs, hstart, hend => by
    rw [mem_cons, not_or] at hstart
    obtain ⟨hne, hstart⟩ := hstart
    have ht : t ∉ p.endTokenIds := hend t (by simp)
    have hthink : t ≠ p.thinkEndTokenId := fun h => ht (h ▸ p.thinkEnd_mem)
    rw [foldl_cons, serveToken, if_neg (Ne.symm (a := p.thinkStartTokenId) hne), hs, if_pos rfl, if_neg hthink, if_neg ht,
      foldl_serveToken_inside tokens _ rfl hstart (forall_mem_cons.mp hend).2]
    simp

theorem Closes.head_mem {t : ℤ} {post : List ℤ} (h : Closes p (t :: post) content still) : t ∈ p.endTokenIds := by
  cases h with
  | think => exact p.thinkEnd_mem
  | tool _ _ ht _ => exact ht

theorem Closes.foldl_serveToken (h : Closes p tail content still)
    (hstart : p.thinkStartTokenId ∉ tail) (s : Served) (hs : s.isStillReasoning = true) :
    tail.foldl p.serveToken s = ⟨s.reasoning, s.content ++ content, still⟩ := by
  cases h with
  | unclosed => simp [← hs]
  | think post =>
    rw [mem_cons, not_or] at hstart
    obtain ⟨hne, hstart⟩ := hstart
    rw [foldl_cons, serveToken, if_neg (Ne.symm hne), hs, if_pos rfl, if_pos rfl,
      foldl_serveToken_outside content _ rfl hstart]
  | tool t post ht hthink =>
    rw [mem_cons, not_or] at hstart
    obtain ⟨hne, hstart⟩ := hstart
    rw [foldl_cons, serveToken, if_neg (Ne.symm hne), hs, if_pos rfl, if_neg hthink, if_pos ht,
      foldl_serveToken_outside post _ rfl hstart]
    simp

theorem serve_eq_foldl {s : Served} {tokens : List ℤ} (h : p.OneBlock s.isStillReasoning tokens) :
    p.serve s tokens = tokens.foldl p.serveToken s := by
  obtain ⟨body, rest, next, hsplits, hserve⟩ := p.serve_splits s tokens
  obtain ⟨reasoning, content, still⟩ := s
  rw [hserve]
  cases hsplits with
  | outside _ hstart =>
    rw [foldl_serveToken_outside tokens ⟨reasoning, content, false⟩ rfl hstart, append_nil]
  | opened _ pre _ tail after _ hstart _ hbody hcloses =>
    -- the only `<think>` of the stream is the one that opens the span
    have hone : p.thinkStartTokenId ∉ body ++ tail ∧ (still = true → pre = []) := by
      rcases h with hnone | ⟨pre', post, heq, hpre', hpost, hr⟩
      · simp at hnone
      · obtain ⟨rfl, -, rfl⟩ := (append_cons_inj_of_notMem hpre' hpost).mp heq.symm
        exact ⟨hpost, hr⟩
    obtain ⟨hrest, hpre⟩ := hone
    rw [mem_append, not_or] at hrest
    have hskip : pre.foldl p.serveToken ⟨reasoning, content, still⟩ = ⟨reasoning, content ++ pre, still⟩ := by
      cases still with
      | false => exact foldl_serveToken_outside pre _ rfl hstart
      | true => simp [hpre rfl]
    rw [foldl_append, hskip, foldl_cons, serveToken, if_pos rfl, foldl_append,
      foldl_serveToken_inside body _ rfl hrest.1 hbody, hcloses.foldl_serveToken hrest.2 _ rfl]
    simp
  | inside _ tail _ _ hstart hbody hcloses =>
    have htail : p.thinkStartTokenId ∉ tail := by
      rcases h with hnone | ⟨pre, post, heq, -, hpost, hr⟩
      · exact fun hmem => hnone (by simp [hmem])
      · -- a stream that begins with `<think>` does not begin inside the body
        rw [hr rfl, nil_append] at heq
        rcases body with _ | ⟨b, body⟩
        · subst heq
          exact absurd hcloses.head_mem p.start_not_mem
        · rw [cons_append, cons.injEq] at heq
          exact absurd (by simp [heq.1]) hstart
    rw [foldl_append, foldl_serveToken_inside body _ rfl hstart hbody, hcloses.foldl_serveToken htail _ rfl]

theorem OneBlock.append {s : Served} {chunk rest : List ℤ} (hchunk : chunk ≠ [])
    (h : p.OneBlock s.isStillReasoning (chunk ++ rest)) : p.OneBlock s.isStillReasoning chunk ∧
      p.OneBlock (chunk.foldl p.serveToken s).isStillReasoning rest := by
  rcases h with hnone | ⟨pre, post, heq, hpre, hpost, hr⟩
  · rw [mem_append, not_or] at hnone
    exact ⟨.inl hnone.1, .inl hnone.2⟩
  have houtside : ∀ more, pre = chunk ++ more → s.isStillReasoning = false := fun more hmore => by
    rcases hs : s.isStillReasoning with _ | _
    · rfl
    · exact absurd (append_eq_nil_iff.mp (hmore.symm.trans (hr hs))).1 hchunk
  rcases append_eq_append_iff.mp heq with ⟨more, rfl, hrest⟩ | ⟨more, rfl, hpost'⟩
  · have hs := houtside _ rfl
    rw [mem_append, not_or] at hpre
    rw [foldl_serveToken_outside chunk s hs hpre.1, hs]
    exact ⟨.inl hpre.1, .inr ⟨more, post, hrest, hpre.2, hpost, by simp⟩⟩
  · rcases more with _ | ⟨t, more⟩
    · have hs := houtside [] (by simp)
      rw [append_nil] at hchunk ⊢
      exact ⟨.inl hpre, .inr ⟨[], post, hpost'.symm, by simp, hpost, by simp⟩⟩
    · rw [cons_append, cons.injEq] at hpost'
      obtain ⟨rfl, rfl⟩ := hpost'
      rw [mem_append, not_or] at hpost
      exact ⟨.inr ⟨pre, more, rfl, hpre, hpost.1, hr⟩, .inl hpost.2⟩

theorem foldl_serve_eq : ∀ (chunks : List (List ℤ)) (s : Served), (∀ chunk ∈ chunks, chunk ≠ []) →
    p.OneBlock s.isStillReasoning chunks.flatten → chunks.foldl p.serve s = chunks.flatten.foldl p.serveToken s
  | [], _, _, _ => rfl
  | chunk :: chunks, s, hne, h => by
    obtain ⟨hchunk, hrest⟩ := OneBlock.append (hne chunk (by simp)) h
    rw [foldl_cons, flatten_cons, foldl_append, serve_eq_foldl hchunk,
      foldl_serve_eq chunks _ (forall_mem_cons.mp hne).2 hrest]

theorem serve_singleton (s : Served) (t : ℤ) : p.serve s [t] = p.serveToken s t := by
  refine serve_eq_foldl ?_
  rcases eq_or_ne t p.thinkStartTokenId with rfl | hne
  · exact .inr ⟨[], [], rfl, by simp, by simp, by simp⟩
  · exact .inl (by simpa using hne.symm)

theorem start_notMem_foldl : ∀ (tokens : List ℤ) (s : Served), p.thinkStartTokenId ∉ s.reasoning →
    p.thinkStartTokenId ∉ s.content → p.thinkStartTokenId ∉ (tokens.foldl p.serveToken s).reasoning ∧
      p.thinkStartTokenId ∉ (tokens.foldl p.serveToken s).content
  | [], _, hr, hc => ⟨hr, hc⟩
  | t :: tokens, s, hr, hc => by
    rw [foldl_cons]
    rcases eq_or_ne t p.thinkStartTokenId with ht | ht
    · rw [serveToken, if_pos ht]
      exact start_notMem_foldl tokens _ hr hc
    · refine start_notMem_foldl tokens _ ?_ ?_ <;>
      · rw [serveToken, if_neg ht]
        split_ifs <;> simp [hr, hc, ht.symm]

theorem Closes.start_notMem (h : Closes p tail content still)
    (hcont : p.thinkStartTokenId ∉ content) : p.thinkStartTokenId ∉ tail := by
  cases h with
  | unclosed => exact hcont
  | think => simpa [p.start_ne_end] using hcont
  | tool => exact hcont

/-- A stream that one chunk and single tokens split in the same way. -/
theorem oneBlock_of_serve_eq {r : Bool} {tokens : List ℤ}
    (hreas : (p.serve ⟨[], [], r⟩ tokens).reasoning = (tokens.foldl p.serveToken ⟨[], [], r⟩).reasoning)
    (hcont : (p.serve ⟨[], [], r⟩ tokens).content = (tokens.foldl p.serveToken ⟨[], [], r⟩).content) :
    p.OneBlock r tokens := by
  obtain ⟨hbody, hrest⟩ := start_notMem_foldl tokens ⟨[], [], r⟩ (by simp) (by simp)
  rw [← hreas] at hbody
  rw [← hcont] at hrest
  obtain ⟨body, rest, next, hsplits, hserve⟩ := p.serve_splits ⟨[], [], r⟩ tokens
  simp only [hserve, nil_append] at hreas hbody hrest
  cases hsplits with
  | outside _ hstart => exact .inl hstart
  | inside _ tail _ _ hstart _ hcloses =>
    refine .inl ?_
    rw [mem_append, not_or]
    exact ⟨hbody, hcloses.start_notMem hrest⟩
  | opened _ pre _ tail content _ hstart hends hbodyEnds hcloses =>
    rw [mem_append, not_or] at hrest
    have htail := hcloses.start_notMem hrest.2
    refine .inr ⟨pre, body ++ tail, rfl, hstart, by simp [hbody, htail], ?_⟩
    rintro rfl
    -- token by token, what stands before `<think>` is reasoning
    rw [foldl_append, foldl_serveToken_inside pre _ rfl hstart (hends rfl), foldl_cons, serveToken,
      if_pos rfl, foldl_append, foldl_serveToken_inside body _ rfl hbody hbodyEnds,
      hcloses.foldl_serveToken htail _ rfl] at hreas
    simpa using hreas

/-- A way of cutting a stream into non-empty chunks. -/
def CutsInto (tokens : List ℤ) (chunks : List (List ℤ)) : Prop :=
  chunks.flatten = tokens ∧ ∀ chunk ∈ chunks, chunk ≠ []

/-- The split does not depend on the chunks exactly for the streams with at most one `<think>`, at the
    front where the stream begins inside a block. -/
theorem generate_chunking_iff (p : KimiReasoningParser) (r : Bool) (tokens : List ℤ) :
    (∀ chunks chunks', CutsInto tokens chunks → CutsInto tokens chunks' →
      (p.generate r chunks).reasoning = (p.generate r chunks').reasoning ∧
        (p.generate r chunks).content = (p.generate r chunks').content) ↔ p.OneBlock r tokens := by
  constructor
  · intro h
    rcases eq_or_ne tokens [] with rfl | hne
    · exact .inl (by simp)
    have hsingle : p.generate r (tokens.map ([·])) = tokens.foldl p.serveToken ⟨[], [], r⟩ := by
      rw [generate, foldl_map]
      simp [serve_singleton]
    obtain ⟨hreasoning, hcontent⟩ := h [tokens] (tokens.map ([·])) ⟨by simp, by simpa using hne⟩
      ⟨by rw [← flatMap_def, flatMap_singleton'], by simp⟩
    rw [hsingle] at hreasoning hcontent
    exact oneBlock_of_serve_eq hreasoning hcontent
  · rintro h chunks chunks' ⟨hflat, hne⟩ ⟨hflat', hne'⟩
    have heq : p.generate r chunks = p.generate r chunks' := by
      rw [generate, generate, foldl_serve_eq chunks ⟨[], [], r⟩ hne (hflat ▸ h),
        foldl_serve_eq chunks' ⟨[], [], r⟩ hne' (hflat' ▸ h), hflat, hflat']
    rw [heq]
    exact ⟨rfl, rfl⟩

/-- Two blocks in one chunk: the second one is sent as content, with its delimiters. -/
theorem generate_two_blocks :
    let p : KimiReasoningParser := ⟨1, 2, none, by decide, by decide⟩
    p.generate true [[7, 2, 8, 1, 9, 2]] = ⟨[7], [8, 1, 9, 2], false⟩ ∧
      p.generate true [[7, 2, 8], [1, 9, 2]] = ⟨[7, 9], [8], false⟩ := by
  decide

end KimiReasoningParser

end MojoProse.Pipelines
