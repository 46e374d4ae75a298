import MojoProse.Schemes.Trailing
import MojoProse.Stdlib.GraphemeTables

/-! Grapheme cluster boundaries (`_grapheme_break.mojo`): the state machine, and the rules of UAX #29. -/

namespace MojoProse.Stdlib.Grapheme

open Schemes List

/-- `_GraphemeBreakState`, at the start of the text. -/
structure GraphemeBreakState where
  prevGbp : Gbp := .control
  riCountIsOdd : Bool := false
  inExtPictSeq : Bool := false
  seenIncbLinker : Bool := false
  inIncbConjunct : Bool := false

section
variable (state : GraphemeBreakState) (gbp : Gbp) (incb : Incb)

/-- The conjunct that is open behind a codepoint, and whether it has a linker. -/
def nextConjunct : Bool × Bool :=
  if incb = .consonant then (true, false)
  else if state.inIncbConjunct ∧ incb = .extend then (state.inIncbConjunct, state.seenIncbLinker)
  else if state.inIncbConjunct ∧ incb = .linker then (state.inIncbConjunct, true)
  else if state.inIncbConjunct ∧ gbp = .extend then (state.inIncbConjunct, state.seenIncbLinker)
  else if state.inIncbConjunct ∧ gbp = .zwj then (state.inIncbConjunct, state.seenIncbLinker)
  else (false, false)

def nextState : GraphemeBreakState where
  prevGbp := gbp
  riCountIsOdd := if gbp = .regionalIndicator then !state.riCountIsOdd else false
  inExtPictSeq :=
    if gbp = .extendedPictographic then true
    else if gbp = .extend then state.inExtPictSeq
    else if gbp = .zwj then state.inExtPictSeq
    else false
  inIncbConjunct := (nextConjunct state gbp incb).1
  seenIncbLinker := (nextConjunct state gbp incb).2

/-- The break rules, in front of a codepoint. -/
def breakRules : Bool :=
  if state.prevGbp = .cr ∧ gbp = .lf then false
  else if state.prevGbp = .cr ∨ state.prevGbp = .lf ∨ state.prevGbp = .control then true
  else if gbp = .cr ∨ gbp = .lf ∨ gbp = .control then true
  else if state.prevGbp = .l ∧ (gbp = .l ∨ gbp = .v ∨ gbp = .lv ∨ gbp = .lvt) then false
  else if (state.prevGbp = .lv ∨ state.prevGbp = .v) ∧ (gbp = .v ∨ gbp = .t) then false
  else if (state.prevGbp = .lvt ∨ state.prevGbp = .t) ∧ gbp = .t then false
  else if gbp = .extend ∨ gbp = .zwj then false
  else if gbp = .spacingMark then false
  else if state.prevGbp = .prepend then false
  else if state.inIncbConjunct ∧ state.seenIncbLinker ∧ incb = .consonant then false
  else if state.inExtPictSeq ∧ state.prevGbp = .zwj ∧ gbp = .extendedPictographic then false
  else if gbp = .regionalIndicator ∧ state.prevGbp = .regionalIndicator then !state.riCountIsOdd
  else true

end

/-- `_is_grapheme_break`: the new state, and whether there is a boundary in front of the codepoint. -/
def isGraphemeBreak (state : GraphemeBreakState) (cp : ℕ) : GraphemeBreakState × Bool :=
  let gbp := gbpLookup cp
  let incb := incbLookup cp
  (nextState state gbp incb, breakRules state gbp incb)

def stateAfter (text : List ℕ) : GraphemeBreakState :=
  text.foldl (fun state cp => (isGraphemeBreak state cp).1) {}

variable (before : List ℕ)

/-- Whether a boundary is reported in front of a codepoint, behind a text. -/
def reportsBreak (cp : ℕ) : Bool := (isGraphemeBreak (stateAfter before) cp).2

/-- The text ends with a codepoint with one of the properties. -/
def After (properties : List Gbp) : Prop :=
  ∃ b, before.getLast? = some b ∧ gcb b ∈ properties

/-- The left side of GB9c: a consonant, and extends and linkers with at least one linker. -/
def ConjunctBefore : Prop :=
  TrailingWith (fun cp => incb cp = .consonant) (fun cp => incb cp = .extend ∨ incb cp = .linker)
    (fun cp => incb cp = .linker) before

/-- The left side of GB11: a pictograph, extends and a zero width joiner. -/
def EmojiBefore : Prop :=
  ∃ front joiner, before = front ++ [joiner] ∧ gcb joiner = .zwj ∧
    Trailing (fun cp => gcb cp = .extendedPictographic) (fun cp => gcb cp = .extend) front

/-- The left side of GB12 and GB13: an odd number of regional indicators. -/
def FlagBefore : Prop := OddRun (fun cp => gcb cp = .regionalIndicator) before

/-- GB1 and GB3 to GB13: where a rule applies, and whether it breaks. GB2 is about the end of the text. -/
def rulesWith (conjunct emoji : Prop) (before : List ℕ) (cp : ℕ) : List (Prop × Bool) :=
  [(before = [], true),
   (After before [.cr] ∧ gcb cp = .lf, false),
   (After before [.cr, .lf, .control], true),
   (gcb cp ∈ [.cr, .lf, .control], true),
   (After before [.l] ∧ gcb cp ∈ [.l, .v, .lv, .lvt], false),
   (After before [.lv, .v] ∧ gcb cp ∈ [.v, .t], false),
   (After before [.lvt, .t] ∧ gcb cp = .t, false),
   (gcb cp ∈ [.extend, .zwj], false),
   (gcb cp = .spacingMark, false),
   (After before [.prepend], false),
   (conjunct ∧ incb cp = .consonant, false),
   (emoji ∧ gcb cp = .extendedPictographic, false),
   (FlagBefore before ∧ gcb cp = .regionalIndicator, false)]

/-- The first rule that applies decides; GB999 breaks where none does. -/
def Decides : List (Prop × Bool) → Prop
  | [] => True
  | (applies, breaks) :: rest => (applies ∧ breaks = true) ∨ (¬applies ∧ Decides rest)

/-- The rules place a boundary in front of a codepoint, behind a text. -/
def Boundary (before : List ℕ) (cp : ℕ) : Prop :=
  Decides (rulesWith (ConjunctBefore before) (EmojiBefore before) before cp)

/-- What continues a conjunct: all of Grapheme_Cluster_Break=Extend does. -/
def Joins (cp : ℕ) : Prop := incb cp = .extend ∨ incb cp = .linker ∨ gcb cp = .extend

/-- The state's left side of GB9c. -/
def LaxConjunctBefore (before : List ℕ) : Prop :=
  TrailingWith (fun cp => incb cp = .consonant) Joins (fun cp => incb cp = .linker) before

/-- The state's left side of GB11: joiners continue the sequence. -/
def LaxEmojiBefore (before : List ℕ) : Prop :=
  ∃ front joiner, before = front ++ [joiner] ∧ gcb joiner = .zwj ∧
    Trailing (fun cp => gcb cp = .extendedPictographic) (fun cp => gcb cp = .extend ∨ gcb cp = .zwj) front

structure Tracks (state : GraphemeBreakState) (before : List ℕ) : Prop where
  prev : state.prevGbp = (before.getLast?.map gcb).getD .control
  flag : state.riCountIsOdd = true ↔ FlagBefore before
  emoji : state.inExtPictSeq = true ↔
    Trailing (fun cp => gcb cp = .extendedPictographic) (fun cp => gcb cp = .extend ∨ gcb cp = .zwj) before
  conjunct : state.inIncbConjunct = true ↔ Trailing (fun cp => incb cp = .consonant) Joins before
  linker : state.seenIncbLinker = true ↔ LaxConjunctBefore before

theorem tracks_nil : Tracks {} [] where
  prev := rfl
  flag := iff_of_false nofun not_oddRun_nil
  emoji := iff_of_false nofun not_trailing_nil
  conjunct := iff_of_false nofun not_trailing_nil
  linker := iff_of_false nofun not_trailingWith_nil

variable {cp : ℕ}

theorem incbLookup_eq_consonant : incbLookup cp = .consonant ↔ incb cp = .consonant := by
  rcases incbLookup_cases cp with h | ⟨hlook, hincb⟩
  · rw [h]
  · rw [hlook, hincb]
    decide

theorem incbLookup_eq_linker : incbLookup cp = .linker ↔ incb cp = .linker := by
  rcases incbLookup_cases cp with h | ⟨hlook, hincb⟩
  · rw [h]
  · rw [hlook, hincb]
    decide

/-- Behind the fast path for low codepoints, the property Extend still continues a conjunct. -/
theorem continues_iff_joins : (incbLookup cp = .extend ∨ incbLookup cp = .linker ∨ gcb cp = .extend ∨
    gcb cp = .zwj) ↔ Joins cp := by
  rcases incbLookup_cases cp with h | ⟨-, hincb⟩
  · rw [h, Joins]
    constructor
    · rintro (h | h | h | h)
      · exact .inl h
      · exact .inr (.inl h)
      · exact .inr (.inr h)
      · exact .inl (incb_of_zwj h)
    · rintro (h | h | h)
      · exact .inl h
      · exact .inr (.inl h)
      · exact .inr (.inr (.inl h))
  · exact iff_of_true (.inr (.inr (gcb_of_extend hincb))) (.inl hincb)

theorem not_joins_of_consonant (h : incb cp = .consonant) : ¬Joins cp := by
  rw [Joins, h, gcb_of_consonant h]
  decide

variable {state : GraphemeBreakState}

/-- A conjunct opens at a consonant and goes on while it is continued. -/
theorem nextConjunct_open : (nextConjunct state (gcb cp) (incbLookup cp)).1 = true ↔
      incb cp = .consonant ∨ (Joins cp ∧ state.inIncbConjunct = true) := by
  rw [← continues_iff_joins, ← incbLookup_eq_consonant, nextConjunct]
  rcases state.inIncbConjunct with _ | _
  · split_ifs <;> simp_all
  · split_ifs <;> simp_all

theorem nextConjunct_linker (hopen : state.seenIncbLinker = true → state.inIncbConjunct = true) :
    (nextConjunct state (gcb cp) (incbLookup cp)).2 = true ↔
      Joins cp ∧ ((incb cp = .linker ∧ state.inIncbConjunct = true) ∨ state.seenIncbLinker = true) := by
  by_cases hcons : incb cp = .consonant
  · rw [nextConjunct, if_pos (incbLookup_eq_consonant.mpr hcons)]
    exact iff_of_false nofun fun h => not_joins_of_consonant hcons h.1
  rw [← continues_iff_joins, ← incbLookup_eq_linker, nextConjunct, if_neg fun h => hcons (incbLookup_eq_consonant.mp h)]
  rcases hin : state.inIncbConjunct with _ | _
  · have hseen : state.seenIncbLinker = false := Bool.eq_false_iff.mpr fun h => by rw [hopen h] at hin; cases hin
    simp [hseen]
  · split_ifs <;> simp_all

theorem Tracks.next {before : List ℕ} (h : Tracks state before) (cp : ℕ) :
    Tracks (isGraphemeBreak state cp).1 (before ++ [cp]) := by
  rw [isGraphemeBreak, gbpLookup_eq]
  constructor
  · simp [nextState]
  · rw [FlagBefore, oddRun_concat, ← FlagBefore, ← h.flag, nextState]
    split_ifs with hri <;> simp [hri]
  · rw [trailing_concat, ← h.emoji, nextState]
    dsimp only
    split_ifs with hpict hext hzwj <;> simp [*]
  · rw [trailing_concat, ← h.conjunct]
    exact nextConjunct_open
  · rw [LaxConjunctBefore, trailingWith_concat, ← LaxConjunctBefore, ← h.linker, ← h.conjunct]
    exact nextConjunct_linker fun hseen => h.conjunct.mpr (TrailingWith.trailing (h.linker.mp hseen))

theorem tracks_stateAfter (text : List ℕ) : Tracks (stateAfter text) text := by
  induction text using reverseRecOn with
  | nil => exact tracks_nil
  | append_singleton text cp ih =>
    rw [stateAfter, foldl_append]
    exact ih.next cp

theorem decides_cons {condition : Prop} [Decidable condition] {applies : Prop} {breaks otherwise : Bool}
    {rest : List (Prop × Bool)} (hcondition : condition ↔ applies)
    (hrest : ¬condition → (otherwise = true ↔ Decides rest)) :
    (if condition then breaks else otherwise) = true ↔ Decides ((applies, breaks) :: rest) := by
  rw [Decides, ← hcondition]
  split_ifs with h
  · simp [h]
  · simp [h, hrest h]

variable {front : List ℕ}

theorem after_concat {b : ℕ} {properties : List Gbp} : After (front ++ [b]) properties ↔ gcb b ∈ properties := by
  simp [After]

theorem laxEmoji_concat {b : ℕ} :
    LaxEmojiBefore (front ++ [b]) ↔ gcb b = .zwj ∧ Trailing (fun cp => gcb cp = .extendedPictographic)
      (fun cp => gcb cp = .extend ∨ gcb cp = .zwj) (front ++ [b]) := by
  constructor
  · rintro ⟨front', joiner, heq, hzwj, htrail⟩
    obtain ⟨rfl, rfl⟩ := append_singleton_inj.mp heq
    exact ⟨hzwj, trailing_concat.mpr (.inr ⟨.inr hzwj, htrail⟩)⟩
  · rintro ⟨hzwj, htrail⟩
    rcases trailing_concat.mp htrail with hpict | ⟨-, htrail⟩
    · rw [hzwj] at hpict
      cases hpict
    · exact ⟨front, b, rfl, hzwj, htrail⟩

/-- **The code's rules**: the code applies the rules, with laxer left sides of GB9c and GB11. -/
theorem breakRules_iff {before : List ℕ} (h : Tracks state before) (cp : ℕ) :
    breakRules state (gcb cp) (incbLookup cp) = true ↔
      Decides (rulesWith (LaxConjunctBefore before) (LaxEmojiBefore before) before cp) := by
  rcases eq_nil_or_concat' before with rfl | ⟨front, b, rfl⟩
  · have hprev : state.prevGbp = .control := h.prev
    refine iff_of_true ?_ (.inl ⟨rfl, rfl⟩)
    simp [breakRules, hprev]
  have hprev : state.prevGbp = gcb b := by simpa using h.prev
  refine Iff.trans ?_ (show _ ↔ Decides (_ :: _) from ⟨fun h => .inr ⟨by simp, h⟩, fun h => (h.resolve_left (by simp)).2⟩)
  rw [breakRules, hprev]
  refine decides_cons (by simp [after_concat]) fun _ => ?_
  refine decides_cons (by simp [after_concat]) fun _ => ?_
  refine decides_cons (by simp) fun _ => ?_
  refine decides_cons (by simp [after_concat]) fun _ => ?_
  refine decides_cons (by simp [after_concat]) fun _ => ?_
  refine decides_cons (by simp [after_concat]) fun _ => ?_
  refine decides_cons (by simp) fun _ => ?_
  refine decides_cons (by simp) fun _ => ?_
  refine decides_cons (by simp [after_concat]) fun _ => ?_
  refine decides_cons ?_ fun _ => ?_
  · rw [h.conjunct, h.linker, incbLookup_eq_consonant]
    exact ⟨fun h => h.2, fun h => ⟨TrailingWith.trailing h.1, h⟩⟩
  refine decides_cons ?_ fun _ => ?_
  · rw [h.emoji, laxEmoji_concat]
    exact ⟨fun ⟨htrail, hzwj, hpict⟩ => ⟨⟨hzwj, htrail⟩, hpict⟩, fun ⟨⟨hzwj, htrail⟩, hpict⟩ => ⟨htrail, hzwj, hpict⟩⟩
  -- Two regional indicators: an odd number of them ends with one.
  have hflag : FlagBefore (front ++ [b]) → gcb b = .regionalIndicator := fun h => (oddRun_concat.mp h).1
  simp only [Decides, Bool.false_eq_true, and_false, false_or, and_true, ← h.flag] at hflag ⊢
  rcases hodd : state.riCountIsOdd with _ | _
  · simp
  · simp [hflag hodd]

section
variable (before : List ℕ) (cp : ℕ)

theorem reportsBreak_iff : reportsBreak before cp = true ↔
    Decides (rulesWith (LaxConjunctBefore before) (LaxEmojiBefore before) before cp) := by
  rw [reportsBreak, isGraphemeBreak, gbpLookup_eq]
  exact breakRules_iff (tracks_stateAfter before) cp

/-- A conjunct with a linker, interrupted by an Extend without Indic_Conjunct_Break (U+200C), in front of a consonant.
    -/
def InterruptedConjunct : Prop :=
  incb cp = .consonant ∧ ∃ front consonant middle, before = front ++ consonant :: middle ∧ incb consonant = .consonant ∧
    (∀ m ∈ middle, Joins m) ∧ (∃ m ∈ middle, incb m = .linker) ∧ ∃ m ∈ middle, incb m = .none

/-- A pictograph and two joiners, among extends, in front of a pictograph. -/
def JoinedTwice : Prop :=
  gcb cp = .extendedPictographic ∧ ∃ front pictograph middle joiner, before = front ++ pictograph :: middle ++ [joiner] ∧
    gcb pictograph = .extendedPictographic ∧ (∀ m ∈ middle, gcb m = .extend ∨ gcb m = .zwj) ∧
      (∃ m ∈ middle, gcb m = .zwj) ∧ gcb joiner = .zwj

end

section Lax

variable {before : List ℕ} {cp : ℕ}

theorem joins_of_strict (h : incb cp = .extend ∨ incb cp = .linker) : Joins cp := h.imp_right .inl

theorem laxConjunct_of_strict (h : ConjunctBefore before) : LaxConjunctBefore before := by
  obtain ⟨front, consonant, middle, heq, hcons, hmid, hlinker⟩ := h
  exact ⟨front, consonant, middle, heq, hcons, fun m hm => joins_of_strict (hmid m hm), hlinker⟩

theorem laxEmoji_of_strict (h : EmojiBefore before) : LaxEmojiBefore before := by
  obtain ⟨_, joiner, heq, hjoiner, front, pictograph, middle, rfl, hpict, hmid⟩ := h
  exact ⟨_, joiner, heq, hjoiner, front, pictograph, middle, rfl, hpict, fun m hm => .inl (hmid m hm)⟩

theorem interruptedConjunct_iff : InterruptedConjunct before cp ↔
    incb cp = .consonant ∧ LaxConjunctBefore before ∧ ¬ConjunctBefore before := by
  constructor
  · rintro ⟨hcp, front, consonant, middle, rfl, hcons, hmid, hlinker, m, hm, hnone⟩
    refine ⟨hcp, ⟨front, consonant, middle, rfl, hcons, hmid, hlinker⟩, fun hstrict => ?_⟩
    have hm := hstrict.trailing.middle hmid hcons (fun _ => joins_of_strict) (fun _ => not_joins_of_consonant) m hm
    simp [hnone] at hm
  · rintro ⟨hcp, ⟨front, consonant, middle, rfl, hcons, hmid, hlinker⟩, hnot⟩
    refine ⟨hcp, front, consonant, middle, rfl, hcons, hmid, hlinker, ?_⟩
    by_contra hall
    push Not at hall
    refine hnot ⟨front, consonant, middle, rfl, hcons, fun m hm => ?_, hlinker⟩
    have hcons' : incb m ≠ .consonant := fun h => not_joins_of_consonant h (hmid m hm)
    have hnone := hall m hm
    rcases h : incb m with _ | _ | _ | _
    · exact absurd h hnone
    · exact absurd h hcons'
    · exact .inl h
    · exact .inr h

theorem joinedTwice_iff : JoinedTwice before cp ↔
    gcb cp = .extendedPictographic ∧ LaxEmojiBefore before ∧ ¬EmojiBefore before := by
  constructor
  · rintro ⟨hcp, front, pictograph, middle, joiner, rfl, hpict, hmid, ⟨m, hm, hzwj⟩, hjoiner⟩
    refine ⟨hcp, ⟨_, joiner, rfl, hjoiner, front, pictograph, middle, rfl, hpict, hmid⟩, fun hstrict => ?_⟩
    obtain ⟨front', joiner', heq, -, htrail⟩ := hstrict
    obtain ⟨rfl, -⟩ := append_singleton_inj.mp heq
    have hm := htrail.middle hmid hpict (fun _ => .inl) (fun _ h => by simp [h]) m hm
    simp [hzwj] at hm
  · rintro ⟨hcp, ⟨_, joiner, rfl, hjoiner, front, pictograph, middle, rfl, hpict, hmid⟩, hnot⟩
    refine ⟨hcp, front, pictograph, middle, joiner, rfl, hpict, hmid, ?_, hjoiner⟩
    by_contra hall
    push Not at hall
    refine hnot ⟨_, joiner, rfl, hjoiner, front, pictograph, middle, rfl, hpict, fun m hm => ?_⟩
    exact (hmid m hm).resolve_right (hall m hm)

/-- Behind an Extend or a joiner, before a pictograph or a codepoint without a property, only GB9c and GB11 can join. -/
theorem decides_rulesWith {conjunct emoji : Prop} {b : ℕ} (hb : gcb b = .extend ∨ gcb b = .zwj)
    (hcp : gcb cp = .other ∨ gcb cp = .extendedPictographic) : Decides (rulesWith conjunct emoji (front ++ [b]) cp) ↔
      ¬(conjunct ∧ incb cp = .consonant) ∧ ¬(emoji ∧ gcb cp = .extendedPictographic) := by
  simp only [rulesWith, Decides, after_concat]
  rcases hb with hb | hb <;> rcases hcp with hcp | hcp <;> simp [hb, hcp]

/-- An interrupted conjunct is not broken by the code, and is by the rules. -/
theorem InterruptedConjunct.differs (h : InterruptedConjunct before cp) :
    reportsBreak before cp = false ∧ Boundary before cp := by
  obtain ⟨hcp, hlax, hstrict⟩ := interruptedConjunct_iff.mp h
  have hother := gcb_of_consonant hcp
  obtain ⟨front, b, rfl, hb⟩ : ∃ front b, before = front ++ [b] ∧ (gcb b = .extend ∨ gcb b = .zwj) := by
    rcases eq_nil_or_concat' before with rfl | ⟨front, b, rfl⟩
    · exact absurd hlax not_trailingWith_nil
    · refine ⟨front, b, rfl, ?_⟩
      rcases (trailingWith_concat.mp hlax).1 with hb | hb | hb
      · exact gcb_of_extend hb
      · exact .inl (gcb_of_linker hb)
      · exact .inl hb
  rw [← Bool.not_eq_true, reportsBreak_iff, Boundary, decides_rulesWith hb (.inl hother), decides_rulesWith hb (.inl hother)]
  exact ⟨fun h => h.1 ⟨hlax, hcp⟩, fun h => hstrict h.1, fun h => by rw [hother] at h; cases h.2⟩

/-- A pictograph behind two joiners is not broken off by the code, and is by the rules. -/
theorem JoinedTwice.differs (h : JoinedTwice before cp) : reportsBreak before cp = false ∧ Boundary before cp := by
  obtain ⟨hcp, hlax, hstrict⟩ := joinedTwice_iff.mp h
  obtain ⟨front, b, rfl, hb, -⟩ := id hlax
  rw [← Bool.not_eq_true, reportsBreak_iff, Boundary, decides_rulesWith (.inr hb) (.inr hcp),
    decides_rulesWith (.inr hb) (.inr hcp)]
  refine ⟨fun h => h.2 ⟨hlax, hcp⟩, fun h => ?_, fun h => hstrict h.1⟩
  have hother := gcb_of_consonant h.2
  rw [hcp] at hother
  cases hother

/-- Elsewhere the code follows the rules. -/
theorem reportsBreak_iff_boundary (hconjunct : ¬InterruptedConjunct before cp) (htwice : ¬JoinedTwice before cp) :
    reportsBreak before cp = true ↔ Boundary before cp := by
  have hsame : (LaxConjunctBefore before ∧ incb cp = .consonant) = (ConjunctBefore before ∧ incb cp = .consonant) := by
    refine propext ⟨fun h => ⟨?_, h.2⟩, fun h => ⟨laxConjunct_of_strict h.1, h.2⟩⟩
    by_contra hstrict
    exact hconjunct (interruptedConjunct_iff.mpr ⟨h.2, h.1, hstrict⟩)
  have hsame' : (LaxEmojiBefore before ∧ gcb cp = .extendedPictographic) =
      (EmojiBefore before ∧ gcb cp = .extendedPictographic) := by
    refine propext ⟨fun h => ⟨?_, h.2⟩, fun h => ⟨laxEmoji_of_strict h.1, h.2⟩⟩
    by_contra hstrict
    exact htwice (joinedTwice_iff.mpr ⟨h.2, h.1, hstrict⟩)
  rw [reportsBreak_iff, Boundary, rulesWith, rulesWith, hsame, hsame']

end Lax

/-- **Segmentation and UAX #29**: in a text, the code reports the boundaries of the rules exactly when the text has no
    interrupted conjunct in front of a consonant and no pictograph behind a pictograph and two joiners. -/
theorem boundaries_exact_iff (text : List ℕ) :
    (∀ before cp behind, text = before ++ cp :: behind → (reportsBreak before cp = true ↔ Boundary before cp)) ↔
      ∀ before cp behind, text = before ++ cp :: behind → ¬InterruptedConjunct before cp ∧ ¬JoinedTwice before cp := by
  constructor
  · intro h before cp behind htext
    have hsame : ¬(reportsBreak before cp = false ∧ Boundary before cp) := by
      rintro ⟨hreports, hboundary⟩
      rw [(h before cp behind htext).mpr hboundary] at hreports
      cases hreports
    exact ⟨fun hinterrupted => hsame hinterrupted.differs, fun htwice => hsame htwice.differs⟩
  · intro h before cp behind htext
    exact reportsBreak_iff_boundary (h before cp behind htext).1 (h before cp behind htext).2

/-- A consonant, a linker, a zero width non-joiner and a consonant; a pictograph, two joiners and a pictograph. -/
theorem boundaries_missed :
    (reportsBreak [0x0915, 0x094D, 0x200C] 0x0915 = false ∧ Boundary [0x0915, 0x094D, 0x200C] 0x0915) ∧
      reportsBreak [0x1F468, 0x200D, 0x200D] 0x1F469 = false ∧ Boundary [0x1F468, 0x200D, 0x200D] 0x1F469 := by
  have hconsonant : incb 0x0915 = .consonant := by decide +kernel
  have hlinker : incb 0x094D = .linker := by decide +kernel
  have hnone : incb 0x200C = .none ∧ gcb 0x200C = .extend := by decide +kernel
  have hpict : gcb 0x1F468 = .extendedPictographic ∧ gcb 0x1F469 = .extendedPictographic := by decide +kernel
  have hzwj : gcb 0x200D = .zwj := by decide +kernel
  have hinterrupted : InterruptedConjunct [0x0915, 0x094D, 0x200C] 0x0915 :=
    ⟨hconsonant, [], 0x0915, [0x094D, 0x200C], rfl, hconsonant, by simp [Joins, hlinker, hnone],
      ⟨0x094D, by simp, hlinker⟩, 0x200C, by simp, hnone.1⟩
  have htwice : JoinedTwice [0x1F468, 0x200D, 0x200D] 0x1F469 :=
    ⟨hpict.2, [], 0x1F468, [0x200D], 0x200D, rfl, hpict.1, by simp [hzwj], ⟨0x200D, by simp, hzwj⟩, hzwj⟩
  exact ⟨hinterrupted.differs, htwice.differs⟩

end MojoProse.Stdlib.Grapheme
