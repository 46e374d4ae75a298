import Mathlib.Algebra.Order.BigOperators.Group.List
import Mathlib.Algebra.Order.Group.Nat
import Mathlib.Data.List.TakeWhile
import MojoProse.Stdlib.ExpandVars

/-! `expandvars` writes something for each piece of a path, and which of the pieces it gets wrong. -/

namespace MojoProse.Stdlib

open Piece List Environment Nat

variable (cond : UInt8 → Bool) (bytes : List UInt8)

theorem scanWhile_eq (i : ℕ) : scanWhile cond bytes i = i + ((bytes.drop i).takeWhile cond).length := by
  fun_induction scanWhile cond bytes i with
  | case1 i h hcond ih =>
    rw [ih, drop_eq_getElem_cons h, takeWhile_cons_of_pos hcond, length_cons]
    omega
  | case2 i h hcond =>
    rw [drop_eq_getElem_cons h, takeWhile_cons_of_neg hcond]
    rfl
  | case3 i h =>
    rw [drop_eq_nil_of_le (by omega)]
    rfl

theorem take_length_takeWhile : bytes.take (bytes.takeWhile cond).length = bytes.takeWhile cond :=
  (prefix_iff_eq_take.1 ( takeWhile_prefix cond)).symm

theorem drop_length_takeWhile : bytes.drop (bytes.takeWhile cond).length = bytes.dropWhile cond := by
  have hleft : (bytes.takeWhile cond ++ bytes.dropWhile cond).drop (bytes.takeWhile cond).length =
      bytes.dropWhile cond := drop_left
  rwa [takeWhile_append_dropWhile] at hleft

variable {name : List UInt8}

theorem all_ne {b : UInt8} (h : b ∉ bytes) : ∀ c ∈ bytes, (c != b) = true := by
  intro c hc
  rw [bne_iff_ne]
  rintro rfl
  exact h hc

theorem split_closeBrace (hname : closeBrace ∉ name) (rest : List UInt8) :
    (name ++ closeBrace :: rest).takeWhile (· != closeBrace) = name ∧
      (name ++ closeBrace :: rest).dropWhile (· != closeBrace) = closeBrace :: rest := by
  have hall := all_ne name hname
  constructor
  · rw [takeWhile_append_of_pos hall, takeWhile_cons_of_neg (by simp), append_nil]
  · rw [dropWhile_append_of_pos hall, dropWhile_cons_of_neg (by simp)]

theorem parseVariableName_brace (after : List UInt8) : parseVariableName (openBrace :: after) =
      if closeBrace ∈ after then (after.takeWhile (· != closeBrace), (after.takeWhile (· != closeBrace)).length + 2)
      else (after, after.length + 1) := by
  have hscan : scanWhile (· != closeBrace) (openBrace :: after) 1 =
      1 + (after.takeWhile (· != closeBrace)).length := scanWhile_eq ..
  have hslice : slice (openBrace :: after) 1 (1 + (after.takeWhile (· != closeBrace)).length) =
      after.takeWhile (· != closeBrace) := by
    rw [slice, Nat.add_sub_cancel_left]
    exact take_length_takeWhile _ after
  rw [parseVariableName, if_pos (by rfl)]
  split
  · -- A special variable: the scan would stop at the same brace.
    rename_i hcond
    obtain ⟨hlong, hspec, hclose⟩ := hcond
    obtain ⟨s, b, rest, rfl⟩ : ∃ s b rest, after = s :: b :: rest := by
      match after, hlong with
      | s :: b :: rest, _ => exact ⟨s, b, rest, rfl⟩
    have hs : isShellSpecialVariable s = true := by simpa using hspec
    have hb : b = closeBrace := by simpa using hclose
    have hne : s ≠ closeBrace := by
      rintro rfl
      cases hs
    subst hb
    have htake : (s :: closeBrace :: rest).takeWhile (· != closeBrace) = [s] :=
      (@split_closeBrace [s] (by simpa using hne.symm) rest).1
    rw [if_pos (by simp), htake]
    rfl
  · simp only [hscan, hslice, length_cons]
    by_cases hclose : closeBrace ∈ after
    · obtain ⟨name, rest, rfl, hname⟩ := eq_append_cons_of_mem hclose
      rw [(split_closeBrace hname rest).1, if_pos hclose, length_append, length_cons, if_pos (by omega)]
      congr 1
      omega
    · rw [takeWhile_eq_self_iff.2 (all_ne after hclose), if_neg hclose, if_neg (by omega), add_comm]

theorem parseVariableName_special {c : UInt8} (hbrace : c ≠ openBrace) (hspec : isShellSpecialVariable c = true)
    (after : List UInt8) : parseVariableName (c :: after) = ([c], 1) := by
  rw [parseVariableName, if_neg (by simpa using hbrace), if_pos (by simpa using hspec)]
  rfl

theorem parseVariableName_plain {c : UInt8} (hbrace : c ≠ openBrace) (hspec : isShellSpecialVariable c = false)
    (after : List UInt8) : parseVariableName (c :: after) =
      ((c :: after).takeWhile isAlphanumeric, ((c :: after).takeWhile isAlphanumeric).length) := by
  have hscan : scanWhile isAlphanumeric (c :: after) 0 = ((c :: after).takeWhile isAlphanumeric).length := by
    rw [scanWhile_eq, zero_add]
    rfl
  rw [parseVariableName, if_neg (by simpa using hbrace), if_neg (by simpa using hspec)]
  simp [hscan, slice, take_length_takeWhile]

namespace Piece

/-- What `expandvars` writes for a name that it has read, if the whole reference is `text`. -/
def writtenName (env : Environment) (name text : List UInt8) : List UInt8 :=
  if malformed name then text
  else if isSpecial name then [dollar, openBrace]
  else if env.getenv name ≠ [] then env.getenv name
  else text

/-- What `expandvars` writes for a piece. -/
def written (env : Environment) : Piece → List UInt8
  | byte b => [b]
  | special b => [dollar, b]
  | plain name => if env.getenv name ≠ [] then env.getenv name else (plain name).text
  | braced name => writtenName env name (braced name).text
  | unclosed rest => writtenName env rest (unclosed rest).text

theorem text_ne_nil (p : Piece) : p.text ≠ [] := by
  cases p <;> simp [text]

theorem written_ne_nil (env : Environment) (p : Piece) : p.written env ≠ [] := by
  have hname : ∀ name text, text ≠ [] → writtenName env name text ≠ [] := by
    intro name text htext
    unfold writtenName
    split
    · exact htext
    · split
      · simp
      · split
        · assumption
        · exact htext
  cases p with
  | byte b => simp [written]
  | special b => simp [written]
  | plain name =>
    simp only [written]
    split
    · assumption
    · exact text_ne_nil _
  | braced name | unclosed rest => exact hname _ _ (text_ne_nil _)

end Piece

variable {path : List UInt8} {env : Environment}

theorem expandReference_eq {j length : ℕ} {rest name : List UInt8} (h : path.drop j = dollar :: rest)
    (hparse : parseVariableName rest = (name, length)) : expandReference env path j =
      (if malformed name then dollar :: rest.take length else if isSpecial name then dollar :: rest.take 1
        else if env.getenv name ≠ [] then env.getenv name else dollar :: rest.take length, length) := by
  have hdrop : path.drop (j + 1) = rest := by rw [← drop_drop, h]; rfl
  have htext : ∀ k, slice path j (j + (k + 1)) = dollar :: rest.take k := by
    intro k
    rw [slice, h, Nat.add_sub_cancel_left, take_succ_cons]
  have hmal : malformed name = true ↔ name.head? = some openBrace ∨ name = [] := by
    rw [malformed, Bool.or_eq_true, decide_eq_true_eq, decide_eq_true_eq, or_comm]
  rw [expandReference, hdrop, hparse]
  simp only [hmal, isSpecial, Nat.add_assoc, htext]
  split_ifs <;> simp_all

/-- The reference at a dollar sign is the next piece. -/
theorem expandReference_spec (env : Environment) {j : ℕ} {c : UInt8} {after : List UInt8}
    (h : path.drop j = dollar :: c :: after) :
    ∃ piece, pieces (path.drop j) = piece :: pieces (path.drop (j + (expandReference env path j).2 + 1)) ∧
      (expandReference env path j).1 = piece.written env := by
  have hnext : ∀ k, path.drop (j + k + 1) = (c :: after).drop k := by
    intro k
    rw [Nat.add_assoc, ← drop_drop, h]
    rfl
  rcases eq_or_ne c openBrace with rfl | hbrace
  · have hparse := parseVariableName_brace after
    by_cases hclose : closeBrace ∈ after
    · obtain ⟨name, rest, rfl, hname⟩ := eq_append_cons_of_mem hclose
      obtain ⟨htake, hleft⟩ := split_closeBrace hname rest
      rw [if_pos hclose, htake] at hparse
      rw [expandReference_eq h hparse, hnext, h, pieces, if_pos rfl]
      refine ⟨.braced name, ?_, ?_⟩
      · simp only [if_pos hclose, if_true, htake, hleft]
        simp
      · simp [written, writtenName, text, take_append, take_of_length_le]
    · rw [if_neg hclose] at hparse
      rw [expandReference_eq h hparse, hnext, h, pieces, if_pos rfl]
      refine ⟨.unclosed after, ?_, ?_⟩
      · simp only [if_neg hclose, if_true]
        rw [drop_eq_nil_of_le (by simp), pieces]
      · rw [take_of_length_le (by simp)]
        rfl
  · cases hspec : isShellSpecialVariable c with
    | true =>
      rw [expandReference_eq h (parseVariableName_special hbrace hspec after), hnext, h, pieces, if_pos rfl]
      exact ⟨.special c, by simp [hbrace, hspec], by simp [malformed, isSpecial, hbrace, hspec, written]⟩
    | false =>
      have hparse := parseVariableName_plain hbrace hspec after
      cases halnum : isAlphanumeric c with
      | true =>
        rw [takeWhile_cons_of_pos halnum] at hparse
        rw [expandReference_eq h hparse, hnext, h, pieces, if_pos rfl]
        refine ⟨.plain (c :: after.takeWhile isAlphanumeric), ?_, ?_⟩
        · simp only [hbrace, if_false, hspec, halnum, Bool.false_eq_true, if_true, length_cons, drop_succ_cons]
          rw [drop_length_takeWhile]
        · simp [malformed, isSpecial, hbrace, hspec, written, text, take_length_takeWhile]
      | false =>
        rw [takeWhile_cons_of_neg (by simp [halnum])] at hparse
        rw [expandReference_eq h hparse, hnext, h, pieces, if_pos rfl]
        exact ⟨.byte dollar, by simp [hbrace, hspec, halnum], by simp [malformed, written]⟩

theorem pieces_byte {b : UInt8} {rest : List UInt8} (h : b ≠ dollar ∨ rest = []) :
    pieces (b :: rest) = .byte b :: pieces rest := by
  rcases h with hne | rfl
  · cases rest with
    | nil => simp [pieces]
    | cons c rest => rw [pieces, if_neg hne]
  · simp [pieces]

/-- What has been written, with the rest of the path, is what is written for all pieces. -/
theorem expandvarsFrom_spec (env : Environment) (path buf : List UInt8) (i j : ℕ) (hij : i ≤ j) (hstart : buf = [] → i = 0) :
    ((expandvarsFrom env path buf i j).1 = [] → (expandvarsFrom env path buf i j).2 = 0) ∧
      (expandvarsFrom env path buf i j).1 ++ path.drop (expandvarsFrom env path buf i j).2 =
        buf ++ slice path i j ++ (pieces (path.drop j)).flatMap (written env) := by
  fun_induction expandvarsFrom env path buf i j with
  | case1 buf i j hj href written ih =>
    obtain ⟨hdollar, hnext⟩ := href
    obtain ⟨c, after, hdrop⟩ : ∃ c after, path.drop j = dollar :: c :: after := by
      refine ⟨path[j + 1], path.drop (j + 2), ?_⟩
      rw [drop_eq_getElem_cons hj, drop_eq_getElem_cons hnext]
      rw [getElem?_eq_getElem hj, Option.some.injEq] at hdollar
      rw [hdollar]
    obtain ⟨piece, hpieces, hwritten⟩ := expandReference_spec env hdrop
    have hne : written.1 ≠ [] := by
      rw [hwritten]
      exact piece.written_ne_nil env
    obtain ⟨hempty, hrest⟩ := ih (le_refl _) (fun hnil => absurd (append_eq_nil_iff.1 hnil).2 hne)
    refine ⟨hempty, ?_⟩
    rw [hrest, hpieces, flatMap_cons, ← hwritten]
    simp [slice, written]
  | case2 buf i j hj href ih =>
    obtain ⟨hempty, hrest⟩ := ih (by omega) hstart
    refine ⟨hempty, ?_⟩
    have hslice : slice path i (j + 1) = slice path i j ++ [path[j]] := by
      have hlt : j - i < (path.drop i).length := by
        rw [length_drop]
        omega
      have hstep : j + 1 - i = j - i + 1 := by omega
      rw [slice, slice, hstep, take_succ_eq_append_getElem hlt, getElem_drop]
      simp [Nat.add_sub_cancel' hij]
    have hpieces : pieces (path.drop j) = .byte path[j] :: pieces (path.drop (j + 1)) := by
      rw [drop_eq_getElem_cons hj]
      refine pieces_byte ?_
      rw [getElem?_eq_getElem hj, Option.some.injEq, not_and_or] at href
      rcases href with hne | hlast
      · exact .inl hne
      · exact .inr (drop_eq_nil_of_le (by omega))
    rw [hrest, hslice, hpieces, flatMap_cons]
    simp [written]
  | case3 buf i j hj =>
    refine ⟨hstart, ?_⟩
    rw [drop_eq_nil_of_le (by omega : path.length ≤ j), pieces, slice, take_of_length_le (by simp; omega)]
    simp

theorem expandvars_eq (env : Environment) (path : List UInt8) :
    expandvars env path = (pieces path).flatMap (written env) := by
  obtain ⟨hempty, hall⟩ := expandvarsFrom_spec env path [] 0 0 (le_refl 0) fun _ => rfl
  have hwhole : (expandvarsFrom env path [] 0 0).1 ++ path.drop (expandvarsFrom env path [] 0 0).2 =
      (pieces path).flatMap (written env) := hall
  rw [expandvars]
  simp only
  split
  · rename_i hnil
    rw [hnil, hempty hnil] at hwhole
    exact hwhole
  · exact hwhole

theorem pieces_text (path : List UInt8) : (pieces path).flatMap text = path := by
  fun_induction pieces path with
  | case1 => rfl
  | case2 => rfl
  | case3 after hclose ih =>
    obtain ⟨name, rest, rfl, hname⟩ := eq_append_cons_of_mem hclose
    obtain ⟨htake, hleft⟩ := split_closeBrace hname rest
    rw [hleft] at ih ⊢
    rw [flatMap_cons, ih, htake]
    simp [text]
  | case4 after hopen => simp [text]
  | case5 c after hbrace hspec ih => rw [flatMap_cons, ih]; rfl
  | case6 c after hbrace hspec halnum ih =>
    rw [flatMap_cons, ih]
    simp [text]
  | case7 c after hbrace hspec halnum ih => rw [flatMap_cons, ih]; rfl
  | case8 b rest hne ih => rw [flatMap_cons, ih]; rfl

theorem plain_mem_pieces {name path : List UInt8} (h : .plain name ∈ pieces path) :
    ∀ b ∈ name, isAlphanumeric b = true := by
  fun_induction pieces path with
  | case1 => cases h
  | case2 => simp at h
  | case3 after hclose ih => exact ih (by simpa using h)
  | case4 after hopen => simp at h
  | case5 c after hbrace hspec ih => exact ih (by simpa using h)
  | case6 c after hbrace hspec halnum ih =>
    rcases mem_cons.1 h with heq | hmem
    · cases heq
      intro b hb
      rcases mem_cons.1 hb with rfl | hb
      · exact halnum
      · exact mem_takeWhile_imp hb
    · exact ih hmem
  | case7 c after hbrace hspec halnum ih => exact ih (by simpa using h)
  | case8 b rest hne ih => exact ih (by simpa using h)

theorem expandedPath_of_unset (hunset : ∀ name, env.value name = none) (path : List UInt8) :
    expandedPath env path = path := by
  have htext : ∀ p : Piece, p.expanded env = p.text := by
    intro p
    cases p with
    | plain name | braced name => simp [expanded, valueOr, hunset]
    | byte b => rfl
    | special b => rfl
    | unclosed rest => rfl
  have hfun : expanded env = text := funext htext
  rw [expandedPath, hfun, pieces_text]

namespace Environment

theorem getenv_of_noNul (env : Environment) (h : 0 ∉ name) : env.getenv name = (env.value name).getD [] := by
  have hwhole : cString name = name := takeWhile_eq_self_iff.2 (all_ne name h)
  rw [getenv, hwhole]

theorem getenv_of_head (env : Environment) (h : name.head? = some 0) : env.getenv name = [] := by
  obtain ⟨rest, rfl⟩ := head?_eq_some_iff.1 h
  have hnil : cString (0 :: rest) = [] := rfl
  rw [getenv, hnil, env.nonempty]
  rfl

def unset : Environment := { value := fun _ => none, nonempty := rfl, noNul := fun _ _ => rfl }

def single (name : List UInt8) (hne : name ≠ []) (hnul : 0 ∉ name) : Environment where
  value other := if other = name then some [dollar] else none
  nonempty := if_neg hne.symm
  noNul other hother := if_neg (by rintro rfl; exact hnul hother)

def Short (env : Environment) : Prop := ∀ name value, env.value name = some value → value.length ≤ 1

theorem Short.getenv (h : env.Short) (name : List UInt8) : (env.getenv name).length ≤ 1 := by
  rw [Environment.getenv]
  cases hval : env.value (cString name) with
  | none => simp
  | some value => exact h _ value hval

end Environment

variable {p : Piece}

namespace Piece

theorem valueOr_eq (env : Environment) (hnul : 0 ∉ name) (text : List UInt8) :
    (if env.getenv name ≠ [] then env.getenv name else text) = valueOr env name text := by
  rw [env.getenv_of_noNul hnul, valueOr]
  match env.value name with
  | none => rfl
  | some [] => rfl
  | some (b :: value) => rfl

theorem valueOr_of_nul (env : Environment) (hnul : 0 ∈ name) (text : List UInt8) : valueOr env name text = text := by
  rw [valueOr, env.noNul name hnul]

/-- Wrong are the special variables in braces, a brace that is not closed with a name behind it, and names with a NUL
    byte. -/
def Regular : Piece → Prop
  | braced name => malformed name ∨ (isSpecial name = false ∧ (0 ∈ name → name.head? = some 0))
  | unclosed rest => malformed rest ∨ rest.head? = some 0
  | _ => True

/-- The bytes of a name that can be looked up. -/
def NulFree : Piece → Prop
  | plain name => 0 ∉ name
  | _ => True

theorem written_eq_expanded (env : Environment) (hp : p.NulFree) (h : p.Regular) : p.written env = p.expanded env := by
  cases p with
  | byte b => rfl
  | special b => rfl
  | plain name => exact valueOr_eq env hp _
  | braced name =>
    rw [written, writtenName, expanded]
    rcases h with hmal | ⟨hspec, hnul⟩
    · simp [hmal]
    · simp only [hspec, Bool.false_eq_true, or_false, if_false]
      by_cases hmal : malformed name = true
      · rw [if_pos hmal, if_pos hmal]
      · rw [if_neg hmal, if_neg hmal]
        by_cases hmem : 0 ∈ name
        · rw [env.getenv_of_head (hnul hmem), valueOr_of_nul env hmem]
          rfl
        · exact valueOr_eq env hmem _
  | unclosed rest =>
    change writtenName env rest (unclosed rest).text = (unclosed rest).text
    rw [writtenName]
    rcases h with hmal | hhead
    · simp [hmal]
    · have hspec : isSpecial rest = false := by
        rw [isSpecial, hhead]
        rfl
      simp [hspec, env.getenv_of_head hhead]

theorem expanded_of_irregular (env : Environment) (h : ¬ p.Regular) :
    p.expanded env = p.text ∧ ∃ name, malformed name = false ∧ name.head? ≠ some 0 ∧ 3 ≤ p.text.length ∧
      ∀ env, p.written env = writtenName env name p.text := by
  cases p with
  | byte b | special b | plain name => exact absurd trivial h
  | braced name =>
    rw [Regular, not_or, not_and] at h
    obtain ⟨hmal, hrest⟩ := h
    refine ⟨?_, name, by simpa using hmal, ?_, by simp [text], fun _ => rfl⟩
    · rw [expanded]
      by_cases hspec : isSpecial name = true
      · rw [if_pos (.inr hspec)]
      · rw [if_neg (by simp [hmal, hspec])]
        refine valueOr_of_nul env ?_ _
        by_contra hnul
        exact hrest (by simpa using hspec) fun hmem => absurd hmem hnul
    · intro hhead
      have hspec : isSpecial name = false := by
        rw [isSpecial, hhead]
        rfl
      exact hrest hspec fun _ => hhead
  | unclosed rest =>
    rw [Regular, not_or] at h
    refine ⟨rfl, rest, by simpa using h.1, h.2, ?_, fun _ => rfl⟩
    rcases rest with _ | ⟨b, rest⟩
    · exact absurd rfl h.1
    · simp [text]

theorem writtenName_length_le (henv : env.Short) (name : List UInt8) {text : List UInt8}
    (htext : 3 ≤ text.length) : (writtenName env name text).length ≤ text.length := by
  unfold writtenName
  split
  · exact le_refl _
  · split
    · exact le_trans (by decide) htext
    · split
      · have := henv.getenv name
        omega
      · exact le_refl _

theorem written_length_le (henv : env.Short) (hp : p.NulFree) : (p.written env).length ≤ (p.expanded env).length := by
  by_cases h : p.Regular
  · rw [written_eq_expanded env hp h]
  · obtain ⟨hexpanded, name, -, -, htext, hwritten⟩ := expanded_of_irregular env h
    rw [hexpanded, hwritten]
    exact writtenName_length_le henv name htext

/-- In some environment less is written for an irregular piece. -/
theorem exists_written_length_lt (h : ¬ p.Regular) :
    ∃ env : Environment, env.Short ∧ (p.written env).length < (p.expanded env).length := by
  obtain ⟨-, name, hmal, hhead, htext, hwritten⟩ := expanded_of_irregular .unset h
  by_cases hspec : isSpecial name = true
  · have hshort : unset.Short := by
      intro name value hval
      cases hval
    refine ⟨.unset, hshort, ?_⟩
    rw [(expanded_of_irregular .unset h).1, hwritten, writtenName, hmal, if_neg (by simp), if_pos hspec]
    exact htext
  · have hne : cString name ≠ [] := by
      rcases name with _ | ⟨b, name⟩
      · cases hmal
      · rw [cString, takeWhile_cons_of_pos (by simpa using hhead)]
        exact cons_ne_nil _ _
    have hnul : 0 ∉ cString name := fun hmem => by simpa using mem_takeWhile_imp hmem
    have hval : (single (cString name) hne hnul).getenv name = [dollar] := by
      rw [getenv, single]
      simp only [if_true]
      rfl
    refine ⟨.single (cString name) hne hnul, ?_, ?_⟩
    · intro other value hother
      rw [single] at hother
      simp only at hother
      split at hother
      · cases hother
        exact le_refl 1
      · cases hother
    · rw [(expanded_of_irregular _ h).1, hwritten, writtenName, hmal, if_neg (by simp), if_neg hspec, hval,
        if_pos (cons_ne_nil _ _)]
      exact lt_of_lt_of_le (by decide) htext

end Piece

theorem nulFree_of_mem_pieces (h : p ∈ pieces path) : p.NulFree := by
  cases p with
  | plain name =>
    intro hnul
    have := plain_mem_pieces h 0 hnul
    revert this
    decide
  | byte b => trivial
  | special b => trivial
  | braced name => trivial
  | unclosed rest => trivial

/-- **`expandvars` replaces the references to set variables and nothing else**, in every environment, exactly if the path
    has only regular pieces. -/
theorem expandvars_eq_expandedPath_iff (path : List UInt8) :
    (∀ env, expandvars env path = expandedPath env path) ↔ ∀ p ∈ pieces path, p.Regular := by
  constructor
  · intro h p hp
    by_contra hirregular
    obtain ⟨env, hshort, hlt⟩ := exists_written_length_lt hirregular
    have hlengths : ((pieces path).flatMap (written env)).length <
        ((pieces path).flatMap (expanded env)).length := by
      rw [length_flatMap, length_flatMap]
      exact sum_lt_sum _ _ (fun q hq => written_length_le hshort (nulFree_of_mem_pieces hq)) ⟨p, hp, hlt⟩
    rw [← expandvars_eq, h env] at hlengths
    exact lt_irrefl _ hlengths
  · intro h env
    rw [expandvars_eq, expandedPath]
    exact flatMap_congr fun p hp => written_eq_expanded env (nulFree_of_mem_pieces hp) (h p hp)

/-- Of a special variable in braces only the opening brace is left: `${1}` becomes `${`. -/
theorem expandvars_braced_digit : expandvars .unset [0x24, 0x7B, 0x31, 0x7D] = [0x24, 0x7B] ∧
    expandedPath .unset [0x24, 0x7B, 0x31, 0x7D] = [0x24, 0x7B, 0x31, 0x7D] := by
  refine ⟨?_, expandedPath_of_unset (fun _ => rfl) _⟩
  decide +kernel

end MojoProse.Stdlib
