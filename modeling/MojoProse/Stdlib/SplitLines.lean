import MojoProse.Stdlib.Utf8

/-! `StringSpan.splitlines` (`string_span.mojo`).

    With `keepends` a line break is looked for behind the line, so that CR LF ends one line. Without it the
    loop cuts at CR and at LF and drops a piece that ends in LF if the piece before it ended in CR: it only
    remembers the last byte of that piece. A position in the string is what is left of it. -/

namespace MojoProse.Stdlib.Utf8

open List

/-! ### The loops -/

def utf8FirstByteSequenceLength (b : Byte) : ℕ := ((~~~b).clz ||| if b < 0b10000000 then 1 else 0).toNat

/-- `_is_newline_char_utf8`, on what is left from `eol_start` on. -/
def isNewlineCharUtf8 (p : List Byte) (b0 : Byte) (charLen : ℕ) : Bool :=
  if charLen = 1 then 0x09 ≤ b0 && b0 ≤ 0x1E && !(0x0D < b0 && b0 < 0x1C)
  else if charLen = 4 then false
  else
    let b1 := p.getD 1 0
    if charLen = 2 then b0 = 0xC2 && b1 = 0x85
    else
      let b2 := p.getD 2 0
      b0 = 0xE2 && b1 = 0x80 && (b2 = 0xA8 || b2 = 0xA9)

/-- The variables of the inner loop; `line` are the bytes from `line_start` to `line_end`. -/
structure Scan where
  line : List Byte
  rest : List Byte
  isNewLine : Bool
  b0 : Byte
  charLen : ℕ
  deriving DecidableEq

def scanLine : ℕ → Scan → Scan
  | 0, s => s
  | fuel + 1, s =>
    match s.isNewLine, s.rest with
    | false, b0 :: tail =>
      let charLen := utf8FirstByteSequenceLength b0
      scanLine fuel
        { line := s.line ++ (b0 :: tail).take charLen
          rest := (b0 :: tail).drop charLen
          isNewLine := isNewlineCharUtf8 (b0 :: tail) b0 charLen
          b0 := b0
          charLen := charLen }
    | _, _ => s

/-- `_splitlines`, on what is left from `line_start` on. -/
def splitlinesLoop (keep : Bool) : ℕ → List Byte → Byte → List (List Byte) → List (List Byte)
  | 0, _, _, output => output
  | _, [], _, output => output
  | fuel + 1, rest, prevB0, output =>
    let s := scanLine rest.length { line := [], rest := rest, isNewLine := false, b0 := 0, charLen := 0 }
    if keep then
      let isRN := s.b0 = 0x0D ∧ s.rest.head? = some 0x0A
      if isRN then splitlinesLoop keep fuel (s.rest.drop 1) prevB0 (output ++ [s.line ++ s.rest.take 1])
      else splitlinesLoop keep fuel s.rest prevB0 (output ++ [s.line])
    else
      let strLen := s.line.length - if s.isNewLine then s.charLen else 0
      let isRN := prevB0 = 0x0D ∧ s.b0 = 0x0A
      if isRN then splitlinesLoop keep fuel s.rest s.b0 output
      else splitlinesLoop keep fuel s.rest s.b0 (output ++ [s.line.take strLen])

def splitlines (keepends : Bool) (string : List Byte) : List (List Byte) :=
  splitlinesLoop keepends string.length string 0 []

/-! ### Line breaks -/

/-- The documented line breaks that are one character. -/
def lineBreaks : List (List Byte) :=
  [[0x09], [0x0A], [0x0B], [0x0C], [0x0D], [0x1C], [0x1D], [0x1E], [0xC2, 0x85], [0xE2, 0x80, 0xA8],
    [0xE2, 0x80, 0xA9]]

def Breaks (c : Character) : Prop := c.1 ∈ lineBreaks

instance : DecidablePred Breaks := fun c => inferInstanceAs (Decidable (c.1 ∈ lineBreaks))

def cr : Character := ⟨[0x0D], [(0x00, 0x7F)], by decide, .cons (by decide) .nil⟩
def lf : Character := ⟨[0x0A], [(0x00, 0x7F)], by decide, .cons (by decide) .nil⟩

def first (c : Character) : Byte := c.1.head (by obtain ⟨b, rest, h⟩ := exists_first c; simp [h])

theorem first_eq {c : Character} {b : Byte} {rest : List Byte} (h : c.1 = b :: rest) : first c = b := by simp [first, h]

theorem length_of_first : ∀ b : Byte, ∀ ranges ∈ (trailing b).toList,
    utf8FirstByteSequenceLength b = ranges.length + 1 := by
  decide +kernel

theorem utf8FirstByteSequenceLength_first (c : Character) : utf8FirstByteSequenceLength (first c) = c.1.length := by
  obtain ⟨b, rest, hc⟩ := exists_first c
  obtain ⟨ranges, ht, hall⟩ := sequence_cons_iff.mp (hc ▸ c.2)
  rw [first_eq hc, hc, length_cons, hall.length_eq]
  exact length_of_first b ranges (by simp [ht])

theorem length_le_four (c : Character) : c.1.length ≤ 4 := by
  have hrows : ∀ row ∈ table37, row.length ≤ 4 := by decide
  obtain ⟨row, hrow, hall⟩ := c.2
  exact hall.length_eq ▸ hrows row hrow

theorem isNewlineCharUtf8_first (c : Character) (rest : List Byte) :
    isNewlineCharUtf8 (c.1 ++ rest) (first c) c.1.length = decide (Breaks c) := by
  have hone : ∀ b : Byte, (0x09 ≤ b && b ≤ 0x1E && !(0x0D < b && b < 0x1C)) = decide ([b] ∈ lineBreaks) := by
    decide +kernel
  have hlen := length_le_four c
  rw [isNewlineCharUtf8]
  rcases hc : c.1 with _ | ⟨b0, _ | ⟨b1, _ | ⟨b2, _ | ⟨b3, _ | ⟨b4, more⟩⟩⟩⟩⟩
  · exact absurd (hc ▸ c.2) not_sequence_nil
  · simpa [Breaks, hc, first_eq hc] using hone b0
  · simp [Breaks, hc, first_eq hc, lineBreaks]
  · simp [Breaks, hc, first_eq hc, lineBreaks, Bool.and_or_distrib_left, Bool.and_assoc]
  · simp [Breaks, hc, lineBreaks]
  · rw [hc] at hlen
    simp only [length_cons] at hlen
    omega

/-! ### The inner loop -/

def Scan.behind (line : List Byte) (c : Character) (rest : List Byte) : Scan where
  line := line ++ c.1
  rest := rest
  isNewLine := decide (Breaks c)
  b0 := first c
  charLen := c.1.length

variable {c : Character} {rest : List Byte}

theorem scanLine_cons {s : Scan} (hs : s.isNewLine = false)
    (hrest : s.rest = c.1 ++ rest) (fuel : ℕ) : scanLine (fuel + 1) s = scanLine fuel (Scan.behind s.line c rest) := by
  obtain ⟨b, tail, hc⟩ := exists_first c
  have hlen := utf8FirstByteSequenceLength_first c
  have hbreaks := isNewlineCharUtf8_first c rest
  have hcons : c.1 ++ rest = b :: (tail ++ rest) := by rw [hc, cons_append]
  rw [scanLine, hs, hrest, hcons]
  dsimp only
  rw [← hcons, ← first_eq hc, hlen, hbreaks, take_left, drop_left]
  rfl

theorem scanLine_of_newLine {s : Scan} (hs : s.isNewLine = true) : ∀ fuel, scanLine fuel s = s
  | 0 => rfl
  | _ + 1 => by rw [scanLine, hs]

theorem scanLine_of_nil {s : Scan} (hs : s.rest = []) : ∀ fuel, scanLine fuel s = s
  | 0 => rfl
  | _ + 1 => by
    rw [scanLine, hs]
    rcases s.isNewLine with _ | _ <;> rfl

/-- The loop stops behind the first line break, or else behind the last character. -/
theorem scanLine_stop (hc : Breaks c ∨ rest = []) : ∀ (body : List Character) (s : Scan)
    (fuel : ℕ), (∀ d ∈ body, ¬Breaks d) → s.isNewLine = false → s.rest = text body ++ (c.1 ++ rest) →
      body.length < fuel → scanLine fuel s = Scan.behind (s.line ++ text body) c rest
  | [], s, fuel + 1, _, hs, hrest, _ => by
    have hstop : scanLine fuel (Scan.behind s.line c rest) = Scan.behind s.line c rest := by
      rcases hc with hc | rfl
      · exact scanLine_of_newLine (by simp [Scan.behind, hc]) fuel
      · exact scanLine_of_nil rfl fuel
    rw [scanLine_cons hs hrest, hstop, text_nil, append_nil]
  | d :: body, s, fuel + 1, hbody, hs, hrest, hfuel => by
    obtain ⟨hd, hbody⟩ := forall_mem_cons.mp hbody
    rw [text_cons, append_assoc] at hrest
    have hfuel : body.length < fuel := by simpa using hfuel
    rw [scanLine_cons hs hrest]
    have ih := scanLine_stop hc body (Scan.behind s.line d (text body ++ (c.1 ++ rest))) fuel hbody
      (by simp [Scan.behind, hd]) rfl hfuel
    refine ih.trans ?_
    simp [Scan.behind]

/-! ### The lines of a string -/

/-- A line and the line break that ends it, if one does. -/
structure Line where
  body : List Character
  ending : List Character

/-- The lines of a string: CR LF ends one line, every other line break one of its own. -/
inductive Lines : List Character → List Line → Prop
  | nil : Lines [] []
  | last {body c} : (∀ d ∈ body, ¬Breaks d) → ¬Breaks c → Lines (body ++ [c]) [⟨body ++ [c], []⟩]
  | one {body c cs ls} : (∀ d ∈ body, ¬Breaks d) → Breaks c → (c = cr → ∀ cs', cs ≠ lf :: cs') → Lines cs ls →
      Lines (body ++ c :: cs) (⟨body, [c]⟩ :: ls)
  | crlf {body cs ls} : (∀ d ∈ body, ¬Breaks d) → Lines cs ls →
      Lines (body ++ cr :: lf :: cs) (⟨body, [cr, lf]⟩ :: ls)

theorem exists_break_or_not : ∀ cs : List Character,
    (∀ d ∈ cs, ¬Breaks d) ∨ ∃ body c rest, cs = body ++ c :: rest ∧ (∀ d ∈ body, ¬Breaks d) ∧ Breaks c
  | [] => .inl (by simp)
  | c :: cs => by
    by_cases hc : Breaks c
    · exact .inr ⟨[], c, cs, rfl, by simp, hc⟩
    rcases exists_break_or_not cs with hcs | ⟨body, d, rest, rfl, hbody, hd⟩
    · exact .inl (forall_mem_cons.mpr ⟨hc, hcs⟩)
    · exact .inr ⟨c :: body, d, rest, rfl, forall_mem_cons.mpr ⟨hc, hbody⟩, hd⟩

theorem exists_lines : ∀ (n : ℕ) (cs : List Character), cs.length ≤ n → ∃ ls, Lines cs ls
  | 0, cs, h => by
    obtain rfl : cs = [] := eq_nil_of_length_eq_zero (Nat.le_zero.mp h)
    exact ⟨[], .nil⟩
  | n + 1, cs, h => by
    rcases exists_break_or_not cs with hcs | ⟨body, c, rest, rfl, hbody, hc⟩
    · rcases eq_nil_or_concat cs with rfl | ⟨body, c, rfl⟩
      · exact ⟨[], .nil⟩
      · rw [concat_eq_append] at hcs ⊢
        obtain ⟨hbody, hc⟩ := forall_mem_append.mp hcs
        exact ⟨_, .last hbody (hc c (mem_singleton.mpr rfl))⟩
    · simp only [length_append, length_cons] at h
      rcases Classical.em (∃ cs', c = cr ∧ rest = lf :: cs') with ⟨cs', rfl, rfl⟩ | hone
      · simp only [length_cons] at h
        obtain ⟨ls, hls⟩ := exists_lines n cs' (by omega)
        exact ⟨_, .crlf hbody hls⟩
      · obtain ⟨ls, hls⟩ := exists_lines n rest (by omega)
        exact ⟨_, .one hbody hc (fun h cs' hrest => hone ⟨cs', h, hrest⟩) hls⟩

/-! ### One turn of the outer loop -/

theorem eq_of_first {b : Byte} (hb : trailing b = some []) (hc : first c = b) : c.1 = [b] := by
  obtain ⟨b', rest, h⟩ := exists_first c
  obtain rfl : b' = b := (first_eq h).symm.trans hc
  obtain ⟨ranges, ht, hall⟩ := sequence_cons_iff.mp (h ▸ c.2)
  obtain rfl : [] = ranges := Option.some.inj (hb.symm.trans ht)
  cases hall
  exact h

theorem first_eq_cr_iff : first c = 0x0D ↔ c = cr :=
  ⟨fun h => Subtype.ext (eq_of_first (by decide) h), fun h => h ▸ rfl⟩

theorem first_eq_lf_iff : first c = 0x0A ↔ c = lf :=
  ⟨fun h => Subtype.ext (eq_of_first (by decide) h), fun h => h ▸ rfl⟩

variable {body cs : List Character}

theorem head_text_eq_lf_iff : (text cs).head? = some 0x0A ↔ ∃ cs', cs = lf :: cs' := by
  rcases cs with _ | ⟨c, cs⟩
  · simp
  · obtain ⟨b, rest, hc⟩ := exists_first c
    rw [text_cons, hc, cons_append, head?_cons, Option.some.injEq, ← first_eq hc, first_eq_lf_iff]
    simp

theorem length_le_text : ∀ cs : List Character, cs.length ≤ (text cs).length
  | [] => Nat.le_refl 0
  | c :: cs => by
    obtain ⟨b, rest, hc⟩ := exists_first c
    have ih := length_le_text cs
    rw [text_cons, hc]
    simp only [cons_append, length_cons, length_append]
    omega

theorem scan_stop (hbody : ∀ d ∈ body, ¬Breaks d) (hc : Breaks c ∨ cs = []) :
    scanLine (text (body ++ c :: cs)).length ⟨[], text (body ++ c :: cs), false, 0, 0⟩ =
      Scan.behind (text body) c (text cs) := by
  have hlen := length_le_text (body ++ c :: cs)
  refine scanLine_stop (hc.imp_right fun hnil => by rw [hnil, text_nil]) body _ _ hbody rfl (by simp) ?_
  simp only [length_append, length_cons] at hlen ⊢
  omega

theorem splitlinesLoop_line (keep : Bool) (hbody : ∀ d ∈ body, ¬Breaks d) (hc : Breaks c ∨ cs = []) {fuel : ℕ}
    (hfuel : (body ++ c :: cs).length ≤ fuel) (prevB0 : Byte) (output : List (List Byte)) :
    ∃ fuel', cs.length ≤ fuel' ∧ splitlinesLoop keep fuel (text (body ++ c :: cs)) prevB0 output = if keep then
        if c = cr ∧ (text cs).head? = some 0x0A then
          splitlinesLoop keep fuel' ((text cs).drop 1) prevB0 (output ++ [text body ++ c.1 ++ (text cs).take 1])
        else splitlinesLoop keep fuel' (text cs) prevB0 (output ++ [text body ++ c.1])
      else if prevB0 = 0x0D ∧ c = lf then splitlinesLoop keep fuel' (text cs) (first c) output
      else splitlinesLoop keep fuel' (text cs) (first c) (output ++ [if Breaks c then text body else text body ++ c.1]) := by
  have hs := scan_stop hbody hc
  rcases fuel with _ | fuel
  · simp at hfuel
  refine ⟨fuel, by simp only [length_append, length_cons] at hfuel; omega, ?_⟩
  rcases hb : text (body ++ c :: cs) with _ | ⟨b, tail⟩
  · exact absurd (text_eq_nil_iff.mp hb) (by simp)
  rw [hb] at hs
  rw [splitlinesLoop, hs]
  case x_4 => simp
  by_cases hc : Breaks c
  · have hcut : (text body ++ c.1).take ((text body ++ c.1).length - c.1.length) = text body := by simp
    simp only [Scan.behind, first_eq_cr_iff, first_eq_lf_iff, hc, decide_true, if_true, hcut]
  · have hall : (text body ++ c.1).take ((text body ++ c.1).length - 0) = text body ++ c.1 := take_length
    simp only [Scan.behind, first_eq_cr_iff, first_eq_lf_iff, hc, decide_false, Bool.false_eq_true, if_false, hall]

/-! ### The loops on the lines -/

theorem splitlinesLoop_nil (keep : Bool) (prevB0 : Byte) (output : List (List Byte)) :
    ∀ fuel, splitlinesLoop keep fuel [] prevB0 output = output
  | 0 => rfl
  | _ + 1 => rfl

theorem breaks_cr : Breaks cr := by decide

theorem breaks_lf : Breaks lf := by decide

variable {ls : List Line}

theorem splitlinesLoop_keep (h : Lines cs ls) (prevB0 : Byte) :
    ∀ (fuel : ℕ) (output : List (List Byte)), cs.length ≤ fuel → splitlinesLoop true fuel (text cs) prevB0 output =
        output ++ ls.map fun l => text (l.body ++ l.ending) := by
  induction h with
  | nil =>
    intro fuel output _
    rw [text_nil, splitlinesLoop_nil, map_nil, append_nil]
  | @last body c hbody hc =>
    intro fuel output hfuel
    obtain ⟨fuel, -, hturn⟩ := splitlinesLoop_line true hbody (.inr rfl) hfuel prevB0 output
    have hcr : c ≠ cr := fun h => hc (h ▸ breaks_cr)
    rw [hturn, if_pos rfl, if_neg (fun h => hcr h.1), text_nil, splitlinesLoop_nil]
    simp
  | @one body c cs ls hbody hc hnot _ ih =>
    intro fuel output hfuel
    obtain ⟨fuel, hfuel, hturn⟩ := splitlinesLoop_line true hbody (.inl hc) hfuel prevB0 output
    have hrn : ¬(c = cr ∧ (text cs).head? = some 0x0A) := by
      rintro ⟨hcr, hlf⟩
      obtain ⟨cs', rfl⟩ := head_text_eq_lf_iff.mp hlf
      exact hnot hcr cs' rfl
    rw [hturn, if_pos rfl, if_neg hrn, ih fuel _ hfuel]
    simp
  | @crlf body cs ls hbody _ ih =>
    intro fuel output hfuel
    obtain ⟨fuel, hfuel, hturn⟩ := splitlinesLoop_line true hbody (.inl breaks_cr) hfuel prevB0 output
    have hrn : cr = cr ∧ (text (lf :: cs)).head? = some 0x0A := ⟨rfl, rfl⟩
    have hdrop : (text (lf :: cs)).drop 1 = text cs := rfl
    rw [hturn, if_pos rfl, if_pos hrn, hdrop, ih fuel _ (Nat.le_of_succ_le hfuel)]
    simp [lf]

/-- The byte that the loop without `keepends` remembers of a line. -/
def remembered (l : Line) : Byte := (l.ending.getLast?.map first).getD 0

/-- The pieces without `keepends`: a line that ends in LF is dropped behind one that ended in CR. -/
def short : Byte → List Line → List (List Byte)
  | _, [] => []
  | prevB0, l :: ls =>
    if prevB0 = 0x0D ∧ l.ending = [lf] then short (remembered l) ls else text l.body :: short (remembered l) ls

theorem splitlinesLoop_short (h : Lines cs ls) :
    ∀ (fuel : ℕ) (prevB0 : Byte) (output : List (List Byte)), cs.length ≤ fuel →
      splitlinesLoop false fuel (text cs) prevB0 output = output ++ short prevB0 ls := by
  induction h with
  | nil =>
    intro fuel prevB0 output _
    rw [text_nil, splitlinesLoop_nil, short, append_nil]
  | @last body c hbody hc =>
    intro fuel prevB0 output hfuel
    obtain ⟨fuel, -, hturn⟩ := splitlinesLoop_line false hbody (.inr rfl) hfuel prevB0 output
    have hlf : c ≠ lf := fun h => hc (h ▸ breaks_lf)
    rw [hturn, if_neg Bool.false_ne_true, if_neg (fun h => hlf h.2), text_nil, splitlinesLoop_nil, if_neg hc]
    simp [short]
  | @one body c cs ls hbody hc _ _ ih =>
    intro fuel prevB0 output hfuel
    obtain ⟨fuel, hfuel, hturn⟩ := splitlinesLoop_line false hbody (.inl hc) hfuel prevB0 output
    have hending : [c] = [lf] ↔ c = lf := by simp
    rw [hturn, if_neg Bool.false_ne_true, ih fuel _ _ hfuel, ih fuel _ _ hfuel, if_pos hc, short]
    simp only [hending]
    split_ifs
    · rfl
    · simp [remembered]
  | @crlf body cs ls hbody _ ih =>
    intro fuel prevB0 output hfuel
    -- the line is cut behind CR, and the empty piece in front of LF is dropped
    obtain ⟨fuel, hfuel, hturn⟩ := splitlinesLoop_line false hbody (.inl breaks_cr) hfuel prevB0 output
    obtain ⟨fuel, hfuel, hturn'⟩ :=
      @splitlinesLoop_line lf [] cs false (by simp) (.inl breaks_lf) fuel hfuel (first cr) (output ++ [text body])
    have hcr : ¬(prevB0 = 0x0D ∧ cr = lf) := fun h => absurd h.2 (by decide)
    rw [nil_append] at hturn'
    rw [hturn, if_neg Bool.false_ne_true, if_neg hcr, if_pos breaks_cr, hturn', if_neg Bool.false_ne_true,
      if_pos ⟨rfl, rfl⟩, ih fuel _ _ hfuel, short]
    simp [remembered]

/-! ### When nothing is lost -/

/-- A line that is dropped: its predecessor ended in CR, and it ends in LF. -/
def Drops : Byte → List Line → Prop
  | _, [] => False
  | prevB0, l :: ls => (prevB0 = 0x0D ∧ l.ending = [lf]) ∨ Drops (remembered l) ls

theorem length_short_le : ∀ (prevB0 : Byte) (ls : List Line),
    (short prevB0 ls).length ≤ ls.length ∧ (Drops prevB0 ls → (short prevB0 ls).length < ls.length)
  | _, [] => ⟨Nat.le_refl 0, False.elim⟩
  | prevB0, l :: ls => by
    obtain ⟨hle, hlt⟩ := length_short_le (remembered l) ls
    rw [short, Drops]
    split_ifs with h
    · simp only [length_cons]
      exact ⟨by omega, fun _ => by omega⟩
    · simp only [length_cons]
      refine ⟨by omega, ?_⟩
      rintro (hdrop | hdrops)
      · exact absurd hdrop h
      · have := hlt hdrops
        omega

theorem short_eq_iff (prevB0 : Byte) (ls : List Line) :
    short prevB0 ls = ls.map (fun l => text l.body) ↔ ¬Drops prevB0 ls := by
  constructor
  · intro h hdrops
    have hlt := (length_short_le prevB0 ls).2 hdrops
    rw [h, length_map] at hlt
    exact Nat.lt_irrefl _ hlt
  · induction ls generalizing prevB0 with
    | nil => exact fun _ => rfl
    | cons l ls ih =>
      intro h
      rw [Drops, not_or] at h
      rw [short, if_neg h.1, ih _ h.2, map_cons]

/-- Some line of the string begins behind a CR, is not empty and ends in LF. -/
def LosesLine (cs : List Character) : Prop :=
  ∃ before line behind, cs = before ++ cr :: (line ++ lf :: behind) ∧ line ≠ [] ∧ ∀ d ∈ line, ¬Breaks d

def FirstEndsInLf (cs : List Character) : Prop :=
  ∃ line behind, cs = line ++ lf :: behind ∧ ∀ d ∈ line, ¬Breaks d

theorem break_unique {a b a' b' : List Character} {c c' : Character} (h : a ++ c :: b = a' ++ c' :: b')
    (ha : ∀ d ∈ a, ¬Breaks d) (ha' : ∀ d ∈ a', ¬Breaks d) (hc : Breaks c) (hc' : Breaks c') :
    a = a' ∧ c = c' ∧ b = b' := by
  have htake : ∀ {a b : List Character} {c}, (∀ d ∈ a, ¬Breaks d) → Breaks c → (a ++ c :: b).takeWhile (¬Breaks ·) = a := by
    intro a b c ha hc
    rw [takeWhile_append_of_pos (by simpa using ha), takeWhile_cons_of_neg (by simpa using hc), append_nil]
  obtain rfl : a = a' := by rw [← @htake a b c ha hc, h, htake ha' hc']
  obtain ⟨rfl, rfl⟩ := cons.inj (append_cancel_left h)
  exact ⟨rfl, rfl, rfl⟩

theorem firstEndsInLf_iff (hbody : ∀ d ∈ body, ¬Breaks d)
    (hc : Breaks c) : FirstEndsInLf (body ++ c :: cs) ↔ c = lf := by
  constructor
  · rintro ⟨line, post, heq, hline⟩
    exact (break_unique heq hbody hline hc breaks_lf).2.1
  · rintro rfl
    exact ⟨body, cs, rfl, hbody⟩

theorem losesLine_of_tail (h : LosesLine cs) : LosesLine (body ++ c :: cs) := by
  obtain ⟨pre, line, post, rfl, hline⟩ := h
  exact ⟨body ++ c :: pre, line, post, by simp, hline⟩

/-- A lost line begins behind the first line break, or later. -/
theorem losesLine_cases (hbody : ∀ d ∈ body, ¬Breaks d) (h : LosesLine (body ++ c :: cs)) :
    (c = cr ∧ ∃ line post, cs = line ++ lf :: post ∧ line ≠ [] ∧ ∀ d ∈ line, ¬Breaks d) ∨ LosesLine cs := by
  obtain ⟨pre, line, post, heq, hline⟩ := h
  rcases append_eq_append_iff.mp heq with ⟨more, rfl, hcons⟩ | ⟨more, rfl, hcons⟩
  · rcases more with _ | ⟨d, more⟩
    · obtain ⟨rfl, rfl⟩ := cons.inj hcons
      exact .inl ⟨rfl, line, post, rfl, hline⟩
    · obtain ⟨rfl, rfl⟩ := cons.inj hcons
      exact .inr ⟨more, line, post, rfl, hline⟩
  · rcases more with _ | ⟨d, more⟩
    · obtain ⟨rfl, rfl⟩ := cons.inj hcons
      exact .inl ⟨rfl, line, post, rfl, hline⟩
    · obtain ⟨rfl, -⟩ := cons.inj hcons
      exact absurd breaks_cr (hbody cr (by simp))

/-- The lines that are dropped are those that begin behind a CR and end in LF. -/
theorem drops_iff (h : Lines cs ls) :
    ∀ prevB0, Drops prevB0 ls ↔ (prevB0 = 0x0D ∧ FirstEndsInLf cs) ∨ LosesLine cs := by
  induction h with
  | nil =>
    intro prevB0
    refine iff_of_false id ?_
    rintro (⟨-, line, post, h, -⟩ | ⟨pre, line, post, h, -⟩) <;> simp at h
  | @last body c hbody hc =>
    intro prevB0
    refine iff_of_false (by simp [Drops]) ?_
    have hnone : ∀ d ∈ body ++ [c], ¬Breaks d := forall_mem_append.mpr ⟨hbody, by simpa using hc⟩
    rintro (⟨-, line, post, h, -⟩ | ⟨pre, line, post, h, -⟩)
    · exact hnone lf (by simp [h]) breaks_lf
    · exact hnone cr (by simp [h]) breaks_cr
  | @one body c cs ls hbody hc hnot _ ih =>
    intro prevB0
    have hrem : remembered ⟨body, [c]⟩ = first c := rfl
    have hending : [c] = [lf] ↔ c = lf := by simp
    rw [Drops, hrem, ih, first_eq_cr_iff, firstEndsInLf_iff hbody hc, hending]
    refine or_congr Iff.rfl ⟨?_, fun h => ?_⟩
    · rintro (⟨rfl, line, post, rfl, hline⟩ | h)
      · refine ⟨body, line, post, rfl, ?_, hline⟩
        rintro rfl
        exact hnot rfl post rfl
      · exact losesLine_of_tail h
    · rcases losesLine_cases hbody h with ⟨hcr, line, post, hcs, -, hline⟩ | h
      · exact .inl ⟨hcr, line, post, hcs, hline⟩
      · exact .inr h
  | @crlf body cs ls hbody _ ih =>
    intro prevB0
    have hrem : remembered ⟨body, [cr, lf]⟩ = 0x0A := rfl
    have hne : cr ≠ lf := by decide
    rw [Drops, hrem, ih, firstEndsInLf_iff hbody breaks_cr]
    simp only [cons.injEq, hne, false_and, and_false, false_or]
    constructor
    · rintro (⟨h, -⟩ | h)
      · exact absurd h (by decide)
      · exact losesLine_of_tail (@losesLine_of_tail lf [] cs h)
    · intro h
      refine .inr ?_
      rcases losesLine_cases hbody h with ⟨-, _ | ⟨d, line⟩, post, hcs, hnonempty, hline⟩ | h
      · exact absurd rfl hnonempty
      · obtain ⟨rfl, -⟩ := cons.inj hcs
        exact absurd breaks_lf (hline lf mem_cons_self)
      · rcases @losesLine_cases lf [] cs (by simp) h with ⟨hcr, -⟩ | h
        · exact absurd hcr.symm hne
        · exact h

/-! ### Line splitting -/

/-- One line terminator: CR LF, or one line break. -/
def Terminator (ending : List Character) : Prop := ending = [cr, lf] ∨ ∃ c, ending = [c] ∧ Breaks c

/-- Every line but the last ends in a terminator, there is none elsewhere, and CR LF is not cut apart. -/
structure Cuts (cs : List Character) (ls : List Line) : Prop where
  concat : (ls.flatMap fun l => l.body ++ l.ending) = cs
  unbroken : ∀ l ∈ ls, ∀ d ∈ l.body, ¬Breaks d
  ended : ∀ l ∈ ls.dropLast, Terminator l.ending
  last : ∀ l ∈ ls, Terminator l.ending ∨ l.ending = []
  whole : ls.IsChain fun l l' => ¬(l.ending = [cr] ∧ (l'.body ++ l'.ending).head? = some lf)

theorem Cuts.cons {l : Line} (h : Cuts cs ls) (hl : ∀ d ∈ l.body, ¬Breaks d)
    (hending : Terminator l.ending) (hwhole : l.ending = [cr] → ∀ cs', cs ≠ lf :: cs') :
    Cuts (l.body ++ l.ending ++ cs) (l :: ls) where
  concat := by rw [flatMap_cons, h.concat]
  unbroken := forall_mem_cons.mpr ⟨hl, h.unbroken⟩
  ended := by
    rcases ls with _ | ⟨l', ls⟩
    · simp
    · exact forall_mem_cons.mpr ⟨hending, h.ended⟩
  last := forall_mem_cons.mpr ⟨.inl hending, h.last⟩
  whole := by
    rcases ls with _ | ⟨l', ls⟩
    · exact .singleton l
    · refine .cons_cons ?_ h.whole
      rintro ⟨hcr, hlf⟩
      obtain ⟨cs', hcs'⟩ := head?_eq_some_iff.mp hlf
      refine hwhole hcr (cs' ++ ls.flatMap fun l => l.body ++ l.ending) ?_
      rw [← h.concat, flatMap_cons, hcs', cons_append]

theorem Lines.cuts (h : Lines cs ls) : Cuts cs ls := by
  induction h with
  | nil => exact ⟨rfl, by simp, by simp, by simp, .nil⟩
  | @last body c hbody hc =>
    have hall : ∀ d ∈ body ++ [c], ¬Breaks d := forall_mem_append.mpr ⟨hbody, by simpa using hc⟩
    exact ⟨by simp, by simpa using hall, by simp, by simp, .singleton _⟩
  | @one body c cs ls hbody hc hnot _ ih =>
    have h := ih.cons (l := ⟨body, [c]⟩) hbody (.inr ⟨c, rfl, hc⟩) fun h => hnot (cons.inj h).1
    simpa using h
  | @crlf body cs ls hbody _ ih =>
    have h := ih.cons (l := ⟨body, [cr, lf]⟩) hbody (.inl rfl) fun h => by simp at h
    simpa using h

/-- **Line splitting loses nothing**, unless a line that is not empty stands between a CR and an LF: there is a cut of
    the string whose lines are the pieces with `keepends`, and without their terminators the pieces without it. -/
theorem splitlines_cuts_iff (cs : List Character) :
    (∃ ls, Cuts cs ls ∧ splitlines true (text cs) = ls.map (fun l => text (l.body ++ l.ending)) ∧
      splitlines false (text cs) = ls.map fun l => text l.body) ↔ ¬LosesLine cs := by
  obtain ⟨ls, hls⟩ := exists_lines cs.length cs (Nat.le_refl _)
  have hkeep := splitlinesLoop_keep hls 0 (text cs).length [] (length_le_text cs)
  have hshort := splitlinesLoop_short hls (text cs).length 0 [] (length_le_text cs)
  have hzero : ¬((0 : Byte) = 0x0D ∧ FirstEndsInLf cs) := fun h => absurd h.1 (by decide)
  have hdrops : Drops 0 ls ↔ LosesLine cs := (drops_iff hls 0).trans (or_iff_right hzero)
  rw [nil_append] at hkeep hshort
  rw [← hdrops]
  constructor
  · rintro ⟨ls', -, hkeep', hshort'⟩ hdrop
    have hlength := congrArg length (hkeep.symm.trans hkeep')
    have hlost := congrArg length (hshort.symm.trans hshort')
    have hlt := (length_short_le 0 ls).2 hdrop
    simp only [length_map] at hlength hlost
    omega
  · intro hdrop
    exact ⟨ls, hls.cuts, hkeep, hshort.trans ((short_eq_iff 0 ls).mpr hdrop)⟩

/-- `"a\rb\n"` is two lines with `keepends` and one line, `"a"`, without. -/
theorem splitlines_loses_line : splitlines true [0x61, 0x0D, 0x62, 0x0A] = [[0x61, 0x0D], [0x62, 0x0A]] ∧
      splitlines false [0x61, 0x0D, 0x62, 0x0A] = [[0x61]] := by
  decide +kernel

end MojoProse.Stdlib.Utf8
