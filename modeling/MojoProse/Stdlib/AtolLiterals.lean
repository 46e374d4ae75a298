import MojoProse.Stdlib.Atol

/-! The strings that `atol` accepts, and the documented ones. -/

namespace MojoProse.Stdlib.Atol

open List Schemes Literal

/-! ### What is accepted behind the sign -/

/-- What `atol` accepts behind the sign: a literal and whitespace, unless it is unprefixed with a leading zero for base
    0; or a literal, an underscore and whitespace, with a value `realBase` times as large. -/
def Accepted (base limit : ℕ) (rest : List Byte) (n : ℕ) : Prop :=
  n ≤ limit ∧ ∃ realBase literal m, Literal base realBase literal m ∧
    ((∃ behind, rest = literal ++ behind ∧ Spaces behind ∧ n = m ∧
        (base = 0 → realBase = 10 → literal.head? = some 0x30 → behind = [])) ∨
      ∃ behind, rest = literal ++ 0x5F :: behind ∧ behind ≠ [] ∧ Spaces behind ∧ n = m * realBase ∧
        ¬(base = 0 ∧ realBase = 10 ∧ literal.head? = some 0x30))

variable {ds : List ℕ} {text marker str tail : List Byte} {base limit realBase n : ℕ}

section Accepted

variable {base limit : ℕ} {rest : List Byte} {n : ℕ}

def BodyBehindPrefix (realBase limit : ℕ) (tail : List Byte) (n : ℕ) : Prop :=
  Body realBase limit 0 tail n ∨ ∃ tail', tail = 0x5F :: tail' ∧ Body realBase limit 0 tail' n

theorem realBase_ne_ten (h : (realBase, marker) ∈ prefixes) : realBase ≠ 10 := by
  have : ∀ p ∈ prefixes, p.1 ≠ 10 := by decide
  exact this _ h

theorem accepted_iff : Accepted base limit rest n ↔ n ≤ limit ∧ ∃ realBase literal m, Literal base realBase literal m ∧
    Closes realBase literal m rest n ∧ (base = 0 → realBase = 10 → literal.head? = some 0x30 → rest = literal) := by
  refine and_congr_right fun _ => exists_congr fun realBase => exists_congr fun literal => exists_congr fun m =>
    and_congr_right fun _ => ?_
  constructor
  · rintro (⟨post, rfl, hsps, hm, hnil⟩ | ⟨post, rfl, hne, hsps, hm, hnot⟩)
    · exact ⟨.inl ⟨post, rfl, hsps, hm⟩, by simpa using hnil⟩
    · exact ⟨.inr ⟨post, rfl, hne, hsps, hm⟩, fun hbase hten hhead => absurd ⟨hbase, hten, hhead⟩ hnot⟩
  · rintro ⟨⟨post, rfl, hsps, hm⟩ | ⟨post, rfl, hne, hsps, hm⟩, hnil⟩
    · exact .inl ⟨post, rfl, hsps, hm, by simpa using hnil⟩
    · exact .inr ⟨post, rfl, hne, hsps, hm, fun h => by simpa using hnil h.1 h.2.1 h.2.2⟩

theorem accepted_of_prefixed (hmark : (realBase, marker) ∈ prefixes)
    (hbase : base = 0 ∨ base = realBase) (h : BodyBehindPrefix realBase limit tail n) :
    Accepted base limit (marker ++ tail) n := by
  have hten : ∀ {p : Prop}, realBase = 10 → p := fun h => absurd h (realBase_ne_ten hmark)
  rcases h with ⟨hn, text, ds, hdigs, hrest⟩ | ⟨tail, rfl, hn, text, ds, hdigs, hrest⟩
  · exact accepted_iff.mpr ⟨hn, realBase, _, _, .prefixed hmark hbase hdigs, closes_append.mpr ⟨_, rfl, hrest⟩, fun _ => hten⟩
  · exact accepted_iff.mpr ⟨hn, realBase, _, _, .separated hmark hbase hdigs,
      closes_append.mpr ⟨_, rfl, closes_cons.mpr ⟨_, rfl, hrest⟩⟩, fun _ => hten⟩

theorem accepted_of_body (hbase : base ≠ 0) (h : Body base limit 0 rest n) : Accepted base limit rest n := by
  obtain ⟨hn, text, ds, hdigs, hrest⟩ := h
  exact accepted_iff.mpr ⟨hn, base, text, _, .plain hbase hdigs, hrest, fun h => absurd h hbase⟩

theorem Digits.ne_nil (h : Digits base text ds) : text ≠ [] := by
  rintro rfl
  cases h

theorem Closes.head {m : ℕ} (h : Closes realBase text m rest n) (htext : text ≠ []) : rest.head? = text.head? := by
  obtain ⟨c, text, rfl⟩ := exists_cons_of_ne_nil htext
  obtain ⟨tail, rfl, -⟩ := closes_cons.mp h
  rfl

theorem value_zeros (base : ℕ) : ∀ {ds : List ℕ}, (∀ d ∈ ds, d = 0) → value base 0 ds = 0
  | [], _ => rfl
  | d :: ds, h => by
    obtain ⟨rfl, hds⟩ := forall_mem_cons.mp h
    have ih := value_zeros base hds
    simpa [value] using ih

theorem accepted_of_decimal (hhead : rest.head? ≠ some 0x30) (h : Body 10 limit 0 rest n) : Accepted 0 limit rest n := by
  obtain ⟨hn, text, ds, hdigs, hrest⟩ := h
  rw [Closes.head hrest hdigs.ne_nil] at hhead
  exact accepted_iff.mpr ⟨hn, 10, text, _, .decimal hdigs fun h => absurd h hhead, hrest, fun _ _ h => absurd h hhead⟩

theorem accepted_of_zeros (hdigs : Digits 10 rest ds) (hzeros : ∀ d ∈ ds, d = 0) : Accepted 0 limit rest 0 :=
  ⟨Nat.zero_le _, 10, rest, _, .decimal hdigs fun _ => hzeros,
    .inl ⟨[], by simp, by simp [Spaces], (value_zeros 10 hzeros).symm, fun _ _ _ => rfl⟩⟩

theorem accepted_cases (h : Accepted base limit rest n) : (base ≠ 0 ∧ Body base limit 0 rest n) ∨
      (∃ realBase marker tail, (realBase, marker) ∈ prefixes ∧ (base = 0 ∨ base = realBase) ∧
        rest = marker ++ tail ∧ BodyBehindPrefix realBase limit tail n) ∨
      (base = 0 ∧ rest.head? ≠ some 0x30 ∧ Body 10 limit 0 rest n) ∨
      (base = 0 ∧ rest.head? = some 0x30 ∧ ∃ ds, Digits 10 rest ds ∧ (∀ d ∈ ds, d = 0) ∧ n = 0) := by
  obtain ⟨hn, realBase, literal, m, hlit, hclose, hnil⟩ := accepted_iff.mp h
  cases hlit with
  | @plain _ _ ds hbase hdigs =>
    exact .inl ⟨hbase, hn, literal, ds, hdigs, hclose⟩
  | @decimal _ ds hdigs hzeros =>
    by_cases hzero : literal.head? = some 0x30
    · obtain rfl := hnil rfl rfl hzero
      have hn : n = value 10 0 ds := by simpa [Closes, Spaces] using hclose
      exact .inr (.inr (.inr ⟨rfl, hzero, ds, hdigs, hzeros hzero, hn.trans (value_zeros 10 (hzeros hzero))⟩))
    · exact .inr (.inr (.inl ⟨rfl, (hclose.head hdigs.ne_nil).trans_ne hzero, hn, literal, ds, hdigs, hclose⟩))
  | @prefixed _ _ marker text ds hmark hbase hdigs =>
    obtain ⟨tail, hrest, htail⟩ := closes_append.mp hclose
    exact .inr (.inl ⟨realBase, marker, tail, hmark, hbase, hrest, .inl ⟨hn, text, ds, hdigs, htail⟩⟩)
  | @separated _ _ marker text ds hmark hbase hdigs =>
    obtain ⟨_, hrest, htail⟩ := closes_append.mp hclose
    obtain ⟨tail, heq, htail⟩ := closes_cons.mp htail
    exact .inr (.inl ⟨realBase, marker, _, hmark, hbase, hrest, .inr ⟨tail, heq, hn, text, ds, hdigs, htail⟩⟩)

end Accepted

/-! ### The base -/

/-- A prefix is no decimal number, and no number in its own base. -/
theorem not_body_of_marker {v : ℕ} (h : (realBase, marker) ∈ prefixes)
    (hbase : base = realBase ∨ base = 10) : ¬Body base limit n (marker ++ tail) v := by
  have hall : ∀ p ∈ prefixes, ∃ char ∈ p.2.getLast?, p.2 = [0x30, char] ∧
      (∀ d ∈ digitValue char, p.1 ≤ d ∧ 10 ≤ d) ∧ char ≠ 0x5F ∧ isPosixSpace char = false := by
    decide +kernel
  obtain ⟨char, -, hmark, hvalue, hunder, hspace⟩ := hall _ h
  obtain rfl : marker = [0x30, char] := hmark
  have hdig : ∀ d, ¬IsDigit base char d := by
    rintro d ⟨hd, hlt⟩
    have hle := hvalue d hd
    dsimp only at hle
    omega
  intro hbody
  obtain ⟨c, rest, d, hcons, hd⟩ := hbody.isDigit
  obtain ⟨rfl, -⟩ := cons.inj hcons
  rcases (body_digit hd).mp hbody with ⟨hsps, -⟩ | hbody | ⟨rest', hcons, -⟩
  · exact not_spaces_of_not_space hspace hsps
  · exact not_body_of_not_digit hdig hbody
  · exact hunder (cons.inj hcons).1

theorem prefixes_length : ∀ p ∈ prefixes, p.2.length = 2 := by decide

theorem ne_marker_of_short {rest : List Byte} (h : (realBase, marker) ∈ prefixes)
    (hlt : rest.length < 2) : rest ≠ marker ++ tail := by
  rintro rfl
  have hlen : marker.length = 2 := prefixes_length _ h
  rw [length_append] at hlt
  omega

theorem mem_prefixes {zero char : Byte} : (base, [zero, char]) ∈ prefixes ↔ zero = 0x30 ∧
    ((base = 2 ∧ (char = 0x62 ∨ char = 0x42)) ∨ (base = 8 ∧ (char = 0x6F ∨ char = 0x4F)) ∨
      (base = 16 ∧ (char = 0x78 ∨ char = 0x58))) := by
  simp only [prefixes, mem_cons, Prod.mk.injEq, cons.injEq, not_mem_nil, and_true, or_false]
  grind

theorem mem_of_marker {zero char : Byte} {tail' : List Byte} (h : (realBase, marker) ∈ prefixes)
    (heq : zero :: char :: tail' = marker ++ tail) : (realBase, [zero, char]) ∈ prefixes := by
  obtain ⟨rfl, -⟩ := @append_inj _ [zero, char] marker tail' tail heq (prefixes_length _ h).symm
  exact h

theorem handleBasePrefix_cases (rest : List Byte) (base : ℕ) :
    (∃ marker tail, (base, marker) ∈ prefixes ∧ rest = marker ++ tail ∧ handleBasePrefix rest base = (tail, true)) ∨
      ((∀ marker tail, (base, marker) ∈ prefixes → rest ≠ marker ++ tail) ∧
        handleBasePrefix rest base = (rest, false)) := by
  rcases rest with _ | ⟨zero, _ | ⟨char, tail⟩⟩
  · exact .inr ⟨fun marker tail h => ne_marker_of_short h (by simp), rfl⟩
  · exact .inr ⟨fun marker tail h => ne_marker_of_short h (by simp), rfl⟩
  by_cases hmark : (base, [zero, char]) ∈ prefixes
  · exact .inl ⟨_, tail, hmark, rfl, if_pos (by exact_mod_cast mem_prefixes.mp hmark)⟩
  · exact .inr ⟨fun marker tail' h heq => hmark (mem_of_marker h heq),
      if_neg fun h => hmark (mem_prefixes.mpr (by exact_mod_cast h))⟩

section
variable (h : (realBase, marker) ∈ prefixes)
include h

theorem prefix_unique {realBase' : ℕ} {marker' tail' : List Byte} (h' : (realBase', marker') ∈ prefixes)
    (heq : marker ++ tail = marker' ++ tail') : realBase = realBase' ∧ tail = tail' := by
  have hsame : ∀ p ∈ prefixes, ∀ q ∈ prefixes, p.2 = q.2 → p.1 = q.1 := by decide
  obtain ⟨rfl, rfl⟩ := append_inj heq ((prefixes_length _ h).trans (prefixes_length _ h').symm)
  exact ⟨hsame _ h _ h' rfl, rfl⟩

theorem realBase_bounds : realBase ∈ [2, 8, 16] ∧ 2 ≤ realBase ∧ realBase ≤ 36 := by
  have : ∀ p ∈ prefixes, p.1 ∈ [2, 8, 16] ∧ 2 ≤ p.1 ∧ p.1 ≤ 36 := by decide
  exact this _ h

theorem head_of_marker : (marker ++ tail).head? = some 0x30 := by
  have : ∀ p ∈ prefixes, p.2.head? = some 0x30 := by decide
  rw [head?_append, this _ h]
  rfl

end

theorem body_of_digits (h : Digits base text ds)
    (hle : value base 0 ds ≤ limit) : Body base limit 0 text (value base 0 ds) :=
  ⟨hle, text, ds, h, .inl ⟨[], by simp, by simp [Spaces], rfl⟩⟩

section Number

variable {base limit : ℕ} (hlim : limit ≤ 2 ^ 63) (h36 : 36 ≤ limit) {rest : List Byte} {n : ℕ}

include hlim h36

theorem parse_prefixed (hmark : (realBase, marker) ∈ prefixes) (hbase : base = 0 ∨ base = realBase) :
    parseNumber realBase limit ⟨0, !(realBase ∈ [2, 8, 16] ∧ true), false⟩ tail = .ok n ↔
      Accepted base limit (marker ++ tail) n := by
  obtain ⟨hmem, hbounds⟩ := realBase_bounds hmark
  have hlead : decide (realBase ∈ [2, 8, 16] ∧ true = true) = true := by simpa using hmem
  rw [hlead, parseNumber_start hbounds hlim h36]
  simp only [true_and]
  refine ⟨accepted_of_prefixed hmark hbase, fun h => ?_⟩
  rcases accepted_cases h with ⟨hne, hbody⟩ | ⟨realBase', marker', tail', hmark', -, heq, hbody⟩ | ⟨-, hhead, -⟩ |
    ⟨-, -, ds, hdigs, hzeros, -⟩
  · exact absurd hbody (not_body_of_marker hmark (.inl (hbase.resolve_left hne)))
  · obtain ⟨rfl, rfl⟩ := prefix_unique hmark hmark' heq
    exact hbody
  · exact absurd (head_of_marker hmark) hhead
  · have hval := value_zeros 10 hzeros
    exact absurd (body_of_digits hdigs (hval.trans_le (Nat.zero_le limit))) (not_body_of_marker hmark (.inr rfl))

theorem parse_unprefixed (hbase : 2 ≤ base ∧ base ≤ 36)
    (hnone : ∀ marker tail, (base, marker) ∈ prefixes → rest ≠ marker ++ tail) :
    parseNumber base limit ⟨0, !(base ∈ [2, 8, 16] ∧ false), false⟩ rest = .ok n ↔ Accepted base limit rest n := by
  have hlead : decide (base ∈ [2, 8, 16] ∧ false = true) = false := by simp
  have hne : base ≠ 0 := by omega
  rw [hlead, parseNumber_start hbase hlim h36]
  simp only [Bool.false_eq_true, false_and, or_false]
  refine ⟨accepted_of_body hne, fun h => ?_⟩
  rcases accepted_cases h with ⟨-, hbody⟩ | ⟨realBase, marker, tail, hmark, hbase', rfl, -⟩ | ⟨hzero, -⟩ | ⟨hzero, -⟩
  · exact hbody
  · obtain rfl := hbase'.resolve_left hne
    exact absurd rfl (hnone marker tail hmark)
  · exact absurd hzero hne
  · exact absurd hzero hne

end Number

/-! ### Base 0 -/

theorem digitValue_eq_zero : ∀ c : Byte, digitValue c = some 0 → c = 0x30 := by decide +kernel

theorem onlyZeros_of_digits (h : Digits base text ds)
    (hzeros : ∀ d ∈ ds, d = 0) : ∀ last, onlyZeros last text = true := by
  have hzero : ∀ {c d}, IsDigit base c d → d = 0 → c = 0x30 := by
    rintro c _ hc rfl
    exact digitValue_eq_zero c hc.1
  induction h with
  | one hc =>
    intro last
    rw [hzero hc (hzeros _ mem_cons_self)]
    rfl
  | cons hc _ ih =>
    intro last
    obtain ⟨hd, hds⟩ := forall_mem_cons.mp hzeros
    rw [hzero hc hd]
    exact ih hds false
  | sep hc _ ih =>
    intro last
    obtain ⟨hd, hds⟩ := forall_mem_cons.mp hzeros
    rw [hzero hc hd]
    exact ih hds true

theorem mem_of_onlyZeros : ∀ {text : List Byte} {last : Bool}, onlyZeros last text = true →
    ∀ c ∈ text, c = 0x30 ∨ c = 0x5F
  | [], _, _ => by simp
  | c :: text, last, h => by
    rw [onlyZeros] at h
    split_ifs at h with hu hl hz
    · exact forall_mem_cons.mpr ⟨.inr hu, mem_of_onlyZeros h⟩
    · exact forall_mem_cons.mpr ⟨.inl (not_not.mp hz), mem_of_onlyZeros h⟩

theorem zeros_of_mem (h : Digits base text ds) (hmem : ∀ c ∈ text, c = 0x30 ∨ c = 0x5F) : ∀ d ∈ ds, d = 0 := by
  have hzero : ∀ {c d}, IsDigit base c d → c = 0x30 ∨ c = 0x5F → d = 0 := by
    rintro c d hd (rfl | rfl)
    · exact (Option.some.inj hd.1).symm
    · exact absurd hd not_isDigit_underscore
  induction h with
  | one hc => exact forall_mem_cons.mpr ⟨hzero hc (hmem _ mem_cons_self), by simp⟩
  | cons hc _ ih =>
    obtain ⟨hc', htext⟩ := forall_mem_cons.mp hmem
    exact forall_mem_cons.mpr ⟨hzero hc hc', ih htext⟩
  | sep hc _ ih =>
    obtain ⟨hc', htext⟩ := forall_mem_cons.mp hmem
    exact forall_mem_cons.mpr ⟨hzero hc hc', ih (forall_mem_cons.mp htext).2⟩

theorem digits_of_body_zeros {rest : List Byte} (hbody : Body 10 limit 0 rest n)
    (hmem : ∀ c ∈ rest, c = 0x30 ∨ c = 0x5F) : ∃ ds, Digits 10 rest ds ∧ (∀ d ∈ ds, d = 0) ∧ n = 0 := by
  have hspace : ∀ {c : Byte}, c = 0x30 ∨ c = 0x5F → isPosixSpace c = false := by
    rintro c (rfl | rfl) <;> rfl
  have hnone : ∀ {post : List Byte}, Spaces post → (∀ c ∈ post, c ∈ rest) → post = [] := by
    rintro (_ | ⟨c, post⟩) hsps hsub
    · rfl
    · have := hspace (hmem c (hsub c mem_cons_self))
      rw [(spaces_cons.mp hsps).1] at this
      cases this
  obtain ⟨-, text, ds, hdigs, ⟨post, rfl, hsps, rfl⟩ | ⟨post, rfl, hne, hsps, -⟩⟩ := hbody
  · obtain rfl := hnone hsps (fun c hc => mem_append_right _ hc)
    rw [append_nil] at hmem ⊢
    have hzeros := zeros_of_mem hdigs hmem
    exact ⟨ds, hdigs, hzeros, value_zeros 10 hzeros⟩
  · exact absurd (hnone hsps fun c hc => mem_append_right _ (mem_cons_of_mem _ hc)) hne

section Identify

variable {limit : ℕ} (hlim : limit ≤ 2 ^ 63) (h36 : 36 ≤ limit) {rest : List Byte} {n : ℕ}

/-- Without a prefix nothing but a decimal number is accepted for base 0. -/
theorem accepted_zero_cases (hnone : ∀ realBase marker tail, (realBase, marker) ∈ prefixes → rest ≠ marker ++ tail)
    (h : Accepted 0 limit rest n) : (rest.head? ≠ some 0x30 ∧ Body 10 limit 0 rest n) ∨
      (rest.head? = some 0x30 ∧ ∃ ds, Digits 10 rest ds ∧ (∀ d ∈ ds, d = 0) ∧ n = 0) := by
  rcases accepted_cases h with ⟨hne, -⟩ | ⟨realBase, marker, tail, hmark, -, rfl, -⟩ | ⟨-, h⟩ | ⟨-, h⟩
  · exact absurd rfl hne
  · exact absurd rfl (hnone realBase marker tail hmark)
  · exact .inl h
  · exact .inr h

include hlim h36

theorem parse_decimal (hnone : ∀ realBase marker tail, (realBase, marker) ∈ prefixes → rest ≠ marker ++ tail)
    (hzeros : rest.head? = some 0x30 → ∀ c ∈ rest, c = 0x30 ∨ c = 0x5F) :
    parseNumber 10 limit ⟨0, true, false⟩ rest = .ok n ↔ Accepted 0 limit rest n := by
  have hstart := @parseNumber_start 10 limit n (by decide) hlim h36 false rest
  simp only [Bool.not_false, Bool.false_eq_true, false_and, or_false] at hstart
  rw [hstart]
  constructor
  · intro hbody
    by_cases hhead : rest.head? = some 0x30
    · obtain ⟨ds, hdigs, hds, rfl⟩ := digits_of_body_zeros hbody (hzeros hhead)
      exact accepted_of_zeros hdigs hds
    · exact accepted_of_decimal hhead hbody
  · intro h
    rcases accepted_zero_cases hnone h with ⟨-, hbody⟩ | ⟨-, ds, hdigs, hds, rfl⟩
    · exact hbody
    · have hval := value_zeros 10 hds
      have hbody := body_of_digits hdigs (hval.trans_le (Nat.zero_le limit))
      rwa [hval] at hbody

end Identify

theorem identifyBase_cases (rest : List Byte) :
    (∃ realBase marker tail, (realBase, marker) ∈ prefixes ∧ rest = marker ++ tail ∧
      identifyBase rest = some (realBase, tail)) ∨
    ((∀ realBase marker tail, (realBase, marker) ∈ prefixes → rest ≠ marker ++ tail) ∧
      ((identifyBase rest = some (10, rest) ∧ (rest.head? = some 0x30 → ∀ c ∈ rest, c = 0x30 ∨ c = 0x5F)) ∨
        (identifyBase rest = none ∧ (rest.head? = some 0x30 → onlyZeros false rest = false) ∧
          (rest.head? ≠ some 0x30 → ∀ c ∈ rest.head?, ∀ d, ¬IsDigit 10 c d)))) := by
  have hdig : ∀ c : Byte, c ≠ 0x30 → ¬(0x31 ≤ c ∧ c ≤ 0x39) → ∀ d, ¬IsDigit 10 c d := by
    have hall : ∀ c : Byte, c ≠ 0x30 → ¬(0x31 ≤ c ∧ c ≤ 0x39) → ∀ d ∈ digitValue c, 10 ≤ d := by decide +kernel
    intro c hc hrange d hd
    exact absurd hd.2 (Nat.not_lt.mpr (hall c hc hrange d hd.1))
  rcases rest with _ | ⟨c, _ | ⟨second, tail⟩⟩
  · exact .inr ⟨fun _ _ _ h => ne_marker_of_short h (by simp), .inr ⟨rfl, nofun, fun _ _ h => by cases h⟩⟩
  · refine .inr ⟨fun _ _ _ h => ne_marker_of_short h (by simp), .inl ⟨rfl, fun h c' hc' => ?_⟩⟩
    rw [mem_singleton.mp hc']
    exact .inl (Option.some.inj h)
  by_cases hmark : ∃ realBase, (realBase, [c, second]) ∈ prefixes
  · obtain ⟨realBase, hmark⟩ := hmark
    refine .inl ⟨realBase, [c, second], tail, hmark, rfl, ?_⟩
    obtain ⟨rfl, ⟨rfl, rfl | rfl⟩ | ⟨rfl, rfl | rfl⟩ | ⟨rfl, rfl | rfl⟩⟩ := mem_prefixes.mp hmark <;> rfl
  refine .inr ⟨fun realBase _ _ h heq => hmark ⟨realBase, mem_of_marker h heq⟩, ?_⟩
  rw [identifyBase]
  split_ifs with hc hb ho hx hz hrange
  · exact absurd ⟨2, mem_prefixes.mpr ⟨hc, .inl ⟨rfl, hb⟩⟩⟩ hmark
  · exact absurd ⟨8, mem_prefixes.mpr ⟨hc, .inr (.inl ⟨rfl, ho⟩)⟩⟩ hmark
  · exact absurd ⟨16, mem_prefixes.mpr ⟨hc, .inr (.inr ⟨rfl, hx⟩)⟩⟩ hmark
  · exact .inl ⟨rfl, fun _ => forall_mem_cons.mpr ⟨.inl hc, mem_of_onlyZeros hz⟩⟩
  · subst hc
    exact .inr ⟨rfl, fun _ => Bool.eq_false_iff.mpr hz, fun hhead => absurd rfl hhead⟩
  · exact .inl ⟨rfl, fun hhead => absurd (Option.some.inj hhead) hc⟩
  · refine .inr ⟨rfl, fun hhead => absurd (Option.some.inj hhead) hc, ?_⟩
    rintro - c' hc'
    rw [← Option.some.inj hc']
    exact hdig c hc hrange

theorem parse_iff_accepted (hbase : base = 0 ∨ 2 ≤ base ∧ base ≤ 36) (hlim : limit ≤ 2 ^ 63)
    (h36 : 36 ≤ limit) {rest : List Byte} : (baseOf rest base >>= fun (realBase, rest, hasPrefix) =>
      parseNumber realBase limit ⟨0, !(realBase ∈ [2, 8, 16] ∧ hasPrefix), false⟩ rest) = .ok n ↔
      Accepted base limit rest n := by
  rcases hbase with rfl | hbase
  · rcases identifyBase_cases rest with ⟨realBase, marker, tail, hmark, rfl, hid⟩ | ⟨hnone, ⟨hid, hzeros⟩ |
      ⟨hid, hzero, hdig⟩⟩
    · have hof : baseOf (marker ++ tail) (0 : ℕ) = .ok (realBase, tail, true) := by
        simp [baseOf, hid, realBase_ne_ten hmark]
      rw [hof]
      exact parse_prefixed hlim h36 hmark (.inl rfl)
    · have hof : baseOf rest (0 : ℕ) = .ok (10, rest, false) := by simp [baseOf, hid]
      rw [hof]
      exact parse_decimal hlim h36 hnone hzeros
    · have hof : baseOf rest (0 : ℕ) = .error .notConvertible := by simp [baseOf, hid]
      rw [hof]
      refine iff_of_false nofun fun h => ?_
      rcases accepted_zero_cases hnone h with ⟨hhead, hbody⟩ | ⟨hhead, ds, hdigs, hds, -⟩
      · obtain ⟨c, tail, d, rfl, hd⟩ := hbody.isDigit
        exact hdig hhead c rfl d hd
      · have := onlyZeros_of_digits hdigs hds false
        rw [hzero hhead] at this
        cases this
  · have hne : base ≠ 0 := by omega
    rcases handleBasePrefix_cases rest base with ⟨marker, tail, hmark, rfl, hhandle⟩ | ⟨hnone, hhandle⟩
    · have hof : baseOf (marker ++ tail) base = .ok (base, tail, true) := by simp [baseOf, hne, hhandle]
      rw [hof]
      exact parse_prefixed hlim h36 hmark (.inr rfl)
    · have hof : baseOf rest base = .ok (base, rest, false) := by simp [baseOf, hne, hhandle]
      rw [hof]
      exact parse_unprefixed hlim h36 hbase hnone

/-! ### The sign -/

theorem dropWhile_spaces {front rest : List Byte} (h : Spaces front) :
    (front ++ rest).dropWhile isPosixSpace = rest.dropWhile isPosixSpace :=
  dropWhile_append_of_pos h

theorem trimAndHandleSign_of_not_sign {rest : List Byte} {c : Byte} (h : str.dropWhile isPosixSpace = c :: rest)
    (hplus : c ≠ 0x2B) (hminus : c ≠ 0x2D) : trimAndHandleSign str = (c :: rest, false) := by
  rw [trimAndHandleSign, h]
  simp only [hplus, hminus, or_self, if_false, decide_false]

/-- The string is whitespace, a sign and `rest`. -/
def Leads (str : List Byte) (isNegative : Bool) (rest : List Byte) : Prop :=
  ∃ front sign, str = front ++ sign ++ rest ∧ Spaces front ∧ (sign, isNegative) ∈ signs

theorem trimAndHandleSign_leads (str : List Byte) : Leads str (trimAndHandleSign str).2 (trimAndHandleSign str).1 := by
  have hfront : Spaces (str.takeWhile isPosixSpace) := fun c hc => all_eq_true.mp all_takeWhile c hc
  have hleads : ∀ {sign rest isNegative}, str.dropWhile isPosixSpace = sign ++ rest → (sign, isNegative) ∈ signs →
      Leads str isNegative rest := fun h hsign =>
    ⟨_, _, by rw [append_assoc, ← h, takeWhile_append_dropWhile], hfront, hsign⟩
  rw [trimAndHandleSign]
  rcases h : str.dropWhile isPosixSpace with _ | ⟨c, rest⟩
  · exact @hleads [] [] false h (by decide)
  rcases eq_or_ne c 0x2B with rfl | hplus
  · exact @hleads [0x2B] rest false h (by decide)
  rcases eq_or_ne c 0x2D with rfl | hminus
  · exact @hleads [0x2D] rest true h (by decide)
  · simp only [hplus, hminus, or_self, if_false, decide_false]
    exact @hleads [] (c :: rest) false h (by decide)

/-- A number starts with neither whitespace nor a sign. -/
def Starts (rest : List Byte) : Prop :=
  ∃ c tail, rest = c :: tail ∧ c ≠ 0x2B ∧ c ≠ 0x2D ∧ isPosixSpace c = false

theorem Leads.trim {rest : List Byte} {isNegative : Bool} (h : Leads str isNegative rest) (hrest : Starts rest) :
    trimAndHandleSign str = (rest, isNegative) := by
  obtain ⟨front, sign, rfl, hfront, hsign⟩ := h
  have hdrop := @dropWhile_spaces front (sign ++ rest) hfront
  rw [← append_assoc] at hdrop
  simp only [signs, mem_cons, Prod.mk.injEq, not_mem_nil, or_false] at hsign
  rcases hsign with ⟨rfl, rfl⟩ | ⟨rfl, rfl⟩ | ⟨rfl, rfl⟩
  · obtain ⟨c, tail, rfl, hplus, hminus, hspace⟩ := hrest
    refine trimAndHandleSign_of_not_sign (hdrop.trans ?_) hplus hminus
    exact dropWhile_cons_of_neg (by rw [hspace]; decide)
  · rw [trimAndHandleSign, hdrop]
    rfl
  · rw [trimAndHandleSign, hdrop]
    rfl

theorem IsDigit.starts {c : Byte} {d : ℕ} (h : IsDigit base c d) : Starts (c :: tail) :=
  ⟨c, tail, rfl, h.not_special.2⟩

theorem Literal.starts {literal post : List Byte} (h : Literal base realBase literal n) : Starts (literal ++ post) := by
  have hdigs : ∀ {base text ds}, Digits base text ds → Starts (text ++ post) := by
    intro base text ds h
    obtain ⟨c, text, d, ds, rfl, -, hd⟩ := h.head
    exact hd.starts
  have hmarked : ∀ {realBase marker tail}, (realBase, marker) ∈ prefixes → Starts (marker ++ tail) := by
    intro realBase marker tail h
    obtain ⟨tail', htail⟩ := head?_eq_some_iff.mp (@head_of_marker marker tail realBase h)
    exact ⟨0x30, tail', htail, by decide⟩
  cases h with
  | plain _ h => exact hdigs h
  | decimal h _ => exact hdigs h
  | prefixed hmark _ _ | separated hmark _ _ =>
    rw [append_assoc]
    exact hmarked hmark

theorem Accepted.starts {rest : List Byte} (h : Accepted base limit rest n) : Starts rest := by
  obtain ⟨-, realBase, literal, m, hlit, ⟨post, rfl, -⟩ | ⟨post, rfl, -⟩⟩ := h
  · exact hlit.starts
  · exact hlit.starts

theorem magnitudeLimit_bounds : ∀ isNegative, 36 ≤ magnitudeLimit isNegative ∧ magnitudeLimit isNegative ≤ 2 ^ 63 := by
  decide

variable {v : ℤ}

theorem atol_of_trim {rest : List Byte} (hbase : base = 0 ∨ 2 ≤ base ∧ base ≤ 36) {isNegative : Bool}
    (htrim : trimAndHandleSign str = (rest, isNegative)) :
    atol str base = .ok v ↔ ∃ n, Accepted base (magnitudeLimit isNegative) rest n ∧ v = signed isNegative n := by
  have hvalid : ¬((base : ℤ) ≠ 0 ∧ ((base : ℤ) < 2 ∨ (base : ℤ) > 36)) := by omega
  have hempty : rest = [] → ¬∃ n, Accepted base (magnitudeLimit isNegative) rest n ∧ v = signed isNegative n := by
    rintro rfl ⟨n, h, -⟩
    obtain ⟨c, tail, h, -⟩ := h.starts
    cases h
  rw [atol, if_neg hvalid]
  rcases eq_or_ne str [] with rfl | hstr
  · exact iff_of_false nofun (hempty (Prod.mk.inj htrim).1.symm)
  rw [if_neg hstr, htrim]
  dsimp only
  by_cases hrest : rest = []
  · rw [if_pos hrest]
    exact iff_of_false nofun (hempty hrest)
  rw [if_neg hrest]
  obtain ⟨h36, hlim⟩ := magnitudeLimit_bounds isNegative
  have hres : ∀ res : ℕ, (if isNegative then if res = 2 ^ 63 - 1 + 1 then return -2 ^ 63 else
      return -(res : ℤ) else return res : Except AtolError ℤ) = .ok (signed isNegative res) := by
    intro res
    rcases isNegative with _ | _
    · rfl
    · rw [if_pos rfl]
      split_ifs with h
      · subst h
        rfl
      · rfl
  simp only [hres, ← parse_iff_accepted hbase hlim h36, bind_eq_ok, Except.ok.injEq]
  constructor
  · rintro ⟨found, hfound, n, hn, rfl⟩
    exact ⟨n, ⟨found, hfound, hn⟩, rfl⟩
  · rintro ⟨n, ⟨found, hfound, hn⟩, rfl⟩
    exact ⟨found, hfound, n, hn, rfl⟩

/-- **What `atol` accepts**: whitespace, a sign and what is accepted behind it. -/
theorem atol_eq_ok_iff (hbase : base = 0 ∨ 2 ≤ base ∧ base ≤ 36) :
    atol str base = .ok v ↔ ∃ isNegative rest n, Leads str isNegative rest ∧
      Accepted base (magnitudeLimit isNegative) rest n ∧ v = signed isNegative n := by
  constructor
  · intro h
    obtain ⟨n, hacc, hv⟩ := (atol_of_trim hbase rfl).mp h
    exact ⟨_, _, n, trimAndHandleSign_leads str, hacc, hv⟩
  · rintro ⟨isNegative, rest, n, hlead, hacc, rfl⟩
    exact (atol_of_trim hbase (hlead.trim hacc.starts)).mpr ⟨n, hacc, rfl⟩

/-! ### Whitespace behind the literal -/

theorem Digits.not_space (h : Digits base text ds) : ∀ c ∈ text, isPosixSpace c = false := by
  induction h with
  | one hd => exact forall_mem_cons.mpr ⟨hd.not_special.2.2.2, by simp⟩
  | cons hd _ ih => exact forall_mem_cons.mpr ⟨hd.not_special.2.2.2, ih⟩
  | sep hd _ ih => exact forall_mem_cons.mpr ⟨hd.not_special.2.2.2, forall_mem_cons.mpr ⟨rfl, ih⟩⟩

theorem Digits.exists_last (h : Digits base text ds) : ∃ text' c d, text = text' ++ [c] ∧ IsDigit base c d := by
  induction h with
  | one hd => exact ⟨[], _, _, rfl, hd⟩
  | @cons c _ _ _ _ _ ih =>
    obtain ⟨text', c', d', rfl, hd'⟩ := ih
    exact ⟨c :: text', c', d', rfl, hd'⟩
  | @sep c _ _ _ _ _ ih =>
    obtain ⟨text', c', d', rfl, hd'⟩ := ih
    exact ⟨c :: 0x5F :: text', c', d', rfl, hd'⟩

theorem Literal.exists_last {literal : List Byte} (h : Literal base realBase literal n) :
    ∃ text c d, literal = text ++ [c] ∧ IsDigit realBase c d := by
  cases h with
  | plain _ hdigs | decimal hdigs _ => exact hdigs.exists_last
  | @prefixed _ _ marker _ _ _ _ hdigs =>
    obtain ⟨text', c, d, rfl, hd⟩ := hdigs.exists_last
    exact ⟨marker ++ text', c, d, by simp, hd⟩
  | @separated _ _ marker _ _ _ _ hdigs =>
    obtain ⟨text', c, d, rfl, hd⟩ := hdigs.exists_last
    exact ⟨marker ++ 0x5F :: text', c, d, by simp, hd⟩

theorem last_unique {text text' post post' : List Byte} {c c' : Byte} (hc : isPosixSpace c = false)
    (hc' : isPosixSpace c' = false) (hbeh : Spaces post) (hbeh' : Spaces post')
    (h : text ++ c :: post = text' ++ c' :: post') : c = c' := by
  have hlast : ∀ {text post : List Byte} {c : Byte}, isPosixSpace c = false → Spaces post →
      (text ++ c :: post).reverse.dropWhile isPosixSpace = c :: text.reverse := by
    intro text post c hc hbeh
    have hreverse : Spaces post.reverse := fun c hc => hbeh c (mem_reverse.mp hc)
    rw [reverse_append, reverse_cons, append_assoc, dropWhile_spaces hreverse]
    exact dropWhile_cons_of_neg (by rw [hc]; decide)
  have heq := @hlast text post c hc hbeh
  rw [h, hlast hc' hbeh'] at heq
  exact (cons.inj heq).1.symm

/-! ### What is documented and what is accepted -/

/-- An unprefixed literal with a leading zero for base 0, with whitespace behind it. -/
def ZeroBeforeSpace (str : List Byte) (base : ℕ) : Prop :=
  base = 0 ∧ ∃ front sign isNegative literal n behind, str = front ++ sign ++ (literal ++ behind) ∧ Spaces front ∧
    (sign, isNegative) ∈ signs ∧ Literal 0 10 literal n ∧ literal.head? = some 0x30 ∧ behind ≠ [] ∧ Spaces behind

/-- A literal with an underscore and whitespace behind it; one more digit would fit. -/
def UnderscoreBeforeSpace (str : List Byte) (base : ℕ) : Prop :=
  ∃ front sign isNegative realBase literal n behind, str = front ++ sign ++ (literal ++ 0x5F :: behind) ∧ Spaces front ∧
    (sign, isNegative) ∈ signs ∧ Literal base realBase literal n ∧ n * realBase ≤ magnitudeLimit isNegative ∧
    ¬(base = 0 ∧ realBase = 10 ∧ literal.head? = some 0x30) ∧ behind ≠ [] ∧ Spaces behind

theorem parses_iff : Parses str base v ↔ ∃ isNegative realBase literal n post, Leads str isNegative (literal ++ post) ∧
    Literal base realBase literal n ∧ Spaces post ∧ v = signed isNegative n ∧ n ≤ magnitudeLimit isNegative := by
  have hbounds : ∀ (isNegative : Bool) (n : ℕ),
      (-2 ^ 63 ≤ signed isNegative n ∧ signed isNegative n ≤ 2 ^ 63 - 1) ↔ n ≤ magnitudeLimit isNegative := by
    intro isNegative n
    rcases isNegative with _ | _
    · simp only [signed, magnitudeLimit, Bool.false_eq_true, if_false]
      omega
    · simp only [signed, magnitudeLimit, if_true]
      omega
  constructor
  · rintro ⟨front, sign, isNegative, realBase, literal, n, post, rfl, hfront, hsign, hlit, hbeh, rfl, hv⟩
    exact ⟨isNegative, realBase, literal, n, post, ⟨front, sign, by simp, hfront, hsign⟩, hlit, hbeh, rfl,
      (hbounds isNegative n).mp hv⟩
  · rintro ⟨isNegative, realBase, literal, n, post, ⟨front, sign, rfl, hfront, hsign⟩, hlit, hbeh, rfl, hn⟩
    exact ⟨front, sign, isNegative, realBase, literal, n, post, by simp, hfront, hsign, hlit, hbeh, rfl,
      (hbounds isNegative n).mpr hn⟩

section Exact

variable {str : List Byte} {base : ℕ} (hbase : base = 0 ∨ 2 ≤ base ∧ base ≤ 36)

include hbase

theorem parses_of_atol (hunder : ¬UnderscoreBeforeSpace str base) (h : atol str base = .ok v) : Parses str base v := by
  obtain ⟨isNegative, rest, n, hlead, ⟨hn, realBase, literal, m, hlit, ⟨post, rfl, hbeh, rfl, -⟩ |
    ⟨post, rfl, hne, hbeh, rfl, hnot⟩⟩, rfl⟩ := (atol_eq_ok_iff hbase).mp h
  · exact parses_iff.mpr ⟨isNegative, realBase, literal, n, post, hlead, hlit, hbeh, rfl, hn⟩
  · obtain ⟨front, sign, hstr, hfront, hsign⟩ := hlead
    exact absurd ⟨front, sign, isNegative, realBase, literal, m, post, hstr, hfront, hsign, hlit, hn, hnot, hne,
      hbeh⟩ hunder

theorem atol_of_parses (hzero : ¬ZeroBeforeSpace str base) (h : Parses str base v) : atol str base = .ok v := by
  obtain ⟨isNegative, realBase, literal, n, post, hlead, hlit, hbeh, rfl, hn⟩ := parses_iff.mp h
  refine (atol_eq_ok_iff hbase).mpr ⟨isNegative, _, n, hlead, ⟨hn, realBase, literal, n, hlit,
    .inl ⟨post, rfl, hbeh, rfl, fun hbase hten hhead => ?_⟩⟩, rfl⟩
  subst hbase hten
  by_contra hne
  obtain ⟨front, sign, hstr, hfront, hsign⟩ := hlead
  exact hzero ⟨rfl, front, sign, isNegative, literal, n, post, hstr, hfront, hsign, hlit, hhead, hne, hbeh⟩

/-- A literal of zeros with whitespace behind it is documented for base 0, and `atol` raises. -/
theorem ZeroBeforeSpace.raises (h : ZeroBeforeSpace str base) : Parses str base 0 ∧ ∀ v, atol str base ≠ .ok v := by
  obtain ⟨rfl, front, sign, isNegative, literal, n, post, hstr, hfront, hsign, hlit, hhead, hne, hbeh⟩ := h
  have hlead : Leads str isNegative (literal ++ post) := ⟨front, sign, hstr, hfront, hsign⟩
  have htrim := hlead.trim (@starts 0 10 n literal post hlit)
  cases hlit with
  | prefixed hmark _ _ | separated hmark _ _ => exact absurd rfl (realBase_ne_ten hmark)
  | @decimal _ ds hdigs hzeros =>
  have hval := value_zeros 10 (hzeros hhead)
  have hlit := decimal hdigs hzeros
  rw [hval] at hlit
  refine ⟨parses_iff.mpr ⟨isNegative, 10, literal, 0, post, hlead, hlit, hbeh, by simp [signed], Nat.zero_le _⟩,
    fun v hv => ?_⟩
  have hclose : Closes 10 literal (value 10 0 ds) (literal ++ post) 0 := .inl ⟨post, rfl, hbeh, hval.symm⟩
  obtain ⟨m, hacc, -⟩ := (atol_of_trim hbase htrim).mp hv
  rcases accepted_cases hacc with ⟨hne', -⟩ | ⟨realBase, marker, tail, hmark, -, heq, -⟩ | ⟨-, hhead', -⟩ |
    ⟨-, -, ds', hdigs', -⟩
  · exact absurd rfl hne'
  · rw [heq] at hclose
    exact not_body_of_marker hmark (.inr rfl) ⟨Nat.zero_le (magnitudeLimit isNegative), literal, ds, hdigs, hclose⟩
  · exact hhead' ((hclose.head hdigs.ne_nil).trans hhead)
  · obtain ⟨c, post', rfl⟩ := exists_cons_of_ne_nil hne
    have hspace := hdigs'.not_space c (mem_append_right _ mem_cons_self)
    rw [(spaces_cons.mp hbeh).1] at hspace
    cases hspace

/-- A literal with an underscore and whitespace behind it is not documented, and `atol` returns. -/
theorem UnderscoreBeforeSpace.returns (h : UnderscoreBeforeSpace str base) :
    (∃ v, atol str base = .ok v) ∧ ∀ v, ¬Parses str base v := by
  obtain ⟨front, sign, isNegative, realBase, literal, n, post, rfl, hfront, hsign, hlit, hn, hnot, hne, hbeh⟩ := h
  refine ⟨⟨_, (atol_eq_ok_iff hbase).mpr ⟨isNegative, _, _, ⟨front, sign, rfl, hfront, hsign⟩, ⟨hn, realBase, literal, n,
    hlit, .inr ⟨post, rfl, hne, hbeh, rfl, hnot⟩⟩, rfl⟩⟩, fun v hparses => ?_⟩
  obtain ⟨_, _, literal', _, post', ⟨front', sign', hstr, -⟩, hlit', hbeh', -⟩ := parses_iff.mp hparses
  obtain ⟨text, c, d, rfl, hd⟩ := hlit'.exists_last
  have hlast : (0x5F : Byte) = c := by
    refine @last_unique (front ++ sign ++ literal) (front' ++ sign' ++ text) post post' 0x5F c rfl
      hd.not_special.2.2.2 hbeh hbeh' ?_
    simpa using hstr
  exact hd.not_special.1 hlast.symm

end Exact

/-- **`atol` and the documentation**: for every base that is 0 or in 2..36, `atol` returns the documented integer
    for the documented strings and raises for all others exactly when the string is no literal of zeros for base 0
    with whitespace behind it, and no literal with an underscore and whitespace behind it. -/
theorem atol_exact_iff (str : List Byte) (base : ℕ) (hbase : base = 0 ∨ 2 ≤ base ∧ base ≤ 36) :
    (∀ v, atol str base = .ok v ↔ Parses str base v) ↔ ¬ZeroBeforeSpace str base ∧ ¬UnderscoreBeforeSpace str base := by
  constructor
  · intro h
    refine ⟨fun hzero => ?_, fun hunderscore => ?_⟩
    · obtain ⟨hparses, hraises⟩ := hzero.raises hbase
      exact hraises 0 ((h 0).mpr hparses)
    · obtain ⟨⟨v, hv⟩, hnot⟩ := hunderscore.returns hbase
      exact hnot v ((h v).mp hv)
  · rintro ⟨hzero, hunderscore⟩ v
    exact ⟨parses_of_atol hbase hunderscore, atol_of_parses hbase hzero⟩

theorem atol_exact_one : atol [0x31] (10 : ℕ) = .ok 1 ↔ Parses [0x31] 10 1 := by
  refine (atol_exact_iff [0x31] 10 (by decide)).mpr ⟨fun h => absurd h.1 (by decide), ?_⟩ 1
  rintro ⟨front, sign, isNegative, realBase, literal, n, behind, hstr, -⟩
  have hmem : (0x5F : Byte) ∈ [(0x31 : Byte)] := by
    rw [hstr]
    simp
  exact absurd hmem (by decide)

/-- `"1_ "` is 10, and `"0 "` is not convertible for base 0. -/
theorem atol_ignores_whitespace_rules : (atol [0x31, 0x5F, 0x20] 10 = .ok 10 ∧ ∀ v, ¬Parses [0x31, 0x5F, 0x20] 10 v) ∧
      atol [0x30, 0x20] 0 = .error .notConvertible ∧ Parses [0x30, 0x20] 0 0 := by
  have hspace : Spaces [0x20] := by simp [Spaces, isPosixSpace]
  have hone : Literal 10 10 [0x31] 1 := @plain 10 _ [1] (by decide) (.one ⟨rfl, by decide⟩)
  have hzero : Literal 0 10 [0x30] 0 := @decimal _ [0] (.one ⟨rfl, by decide⟩) (by decide)
  have hunderscore : UnderscoreBeforeSpace [0x31, 0x5F, 0x20] 10 :=
    ⟨[], [], false, 10, [0x31], 1, [0x20], rfl, by simp [Spaces], by decide, hone, by decide, by decide, by decide, hspace⟩
  exact ⟨⟨by decide +kernel, (hunderscore.returns (by decide)).2⟩, by decide +kernel,
    parses_iff.mpr ⟨false, 10, [0x30], 0, [0x20], ⟨[], [], rfl, by simp [Spaces], by decide⟩, hzero, hspace, rfl, by decide⟩⟩

end MojoProse.Stdlib.Atol
