import MojoProse.Schemes.Guard
import Mathlib.Data.List.Forall2
import Mathlib.Tactic.Common

/-! Strings of the standard library are byte strings in UTF-8. The well-formed ones are the concatenations
    of the sequences in Table 3-7 of the Unicode standard, which `_is_valid_utf8` quotes. -/

namespace MojoProse.Stdlib

open List

abbrev Byte := BitVec 8

namespace Utf8

/-- Table 3-7: a row is the ranges of the first, second, third and fourth byte. -/
def table37 : List (List (Byte × Byte)) :=
  [ [(0x00, 0x7F)],
    [(0xC2, 0xDF), (0x80, 0xBF)],
    [(0xE0, 0xE0), (0xA0, 0xBF), (0x80, 0xBF)],
    [(0xE1, 0xEC), (0x80, 0xBF), (0x80, 0xBF)],
    [(0xED, 0xED), (0x80, 0x9F), (0x80, 0xBF)],
    [(0xEE, 0xEF), (0x80, 0xBF), (0x80, 0xBF)],
    [(0xF0, 0xF0), (0x90, 0xBF), (0x80, 0xBF), (0x80, 0xBF)],
    [(0xF1, 0xF3), (0x80, 0xBF), (0x80, 0xBF), (0x80, 0xBF)],
    [(0xF4, 0xF4), (0x80, 0x8F), (0x80, 0xBF), (0x80, 0xBF)] ]

def InRange (b : Byte) (range : Byte × Byte) : Prop := range.1 ≤ b ∧ b ≤ range.2

instance (b : Byte) (range : Byte × Byte) : Decidable (InRange b range) := inferInstanceAs (Decidable (_ ∧ _))

/-- A sequence that matches a row of the table. -/
def Sequence (bytes : List Byte) : Prop := ∃ row ∈ table37, Forall₂ InRange bytes row

def WellFormed (bytes : List Byte) : Prop :=
  ∃ sequences : List (List Byte), (∀ s ∈ sequences, Sequence s) ∧ sequences.flatten = bytes

/-- The ranges of the bytes that follow a first byte. -/
def trailing (first : Byte) : Option (List (Byte × Byte)) :=
  (table37.find? fun row => row.head?.any fun range => InRange first range).map tail

/-- What is left behind bytes in the given ranges. -/
def strip : List (Byte × Byte) → List Byte → Option (List Byte)
  | [], bytes => some bytes
  | range :: ranges, b :: bytes => if InRange b range then strip ranges bytes else none
  | _ :: _, [] => none

theorem strip_eq_some_iff : ∀ {ranges : List (Byte × Byte)} {bytes rest : List Byte},
    strip ranges bytes = some rest ↔ ∃ s, Forall₂ InRange s ranges ∧ bytes = s ++ rest
  | [], bytes, rest => by simp [strip]
  | range :: ranges, [], rest => by
    simp only [strip, reduceCtorEq, false_iff, not_exists]
    rintro s ⟨hs, hnil⟩
    cases hs
    cases hnil
  | range :: ranges, b :: bytes, rest => by
    rw [strip]
    constructor
    · intro h
      split_ifs at h with hb
      obtain ⟨s, hs, rfl⟩ := strip_eq_some_iff.mp h
      exact ⟨b :: s, .cons hb hs, rfl⟩
    · rintro ⟨_, hall, hbytes⟩
      obtain ⟨b', s, hb, hs, rfl⟩ := forall₂_cons_right_iff.mp hall
      obtain ⟨rfl, rfl⟩ := cons.inj hbytes
      rw [if_pos hb]
      exact strip_eq_some_iff.mpr ⟨s, hs, rfl⟩

variable {bytes : List Byte} {ranges : List (Byte × Byte)} {first : Byte}

theorem length_le_of_strip {rest : List Byte} (h : strip ranges bytes = some rest) : rest.length ≤ bytes.length := by
  obtain ⟨s, -, rfl⟩ := strip_eq_some_iff.mp h
  simp

theorem trailing_of_row : ∀ first : Byte, ∀ row ∈ table37,
    (row.head?.any fun range => InRange first range) = true → trailing first = some row.tail := by
  decide +kernel

theorem row_of_trailing (h : trailing first = some ranges) :
    ∃ range, range :: ranges ∈ table37 ∧ InRange first range := by
  obtain ⟨row, hrow, rfl⟩ := Option.map_eq_some_iff.mp h
  have hmem := mem_of_find?_eq_some hrow
  have hfst := find?_some hrow
  rcases row with _ | ⟨range, ranges⟩
  · cases hfst
  · exact ⟨range, hmem, by simpa using hfst⟩

theorem sequence_cons_iff :
    Sequence (first :: bytes) ↔ ∃ ranges, trailing first = some ranges ∧ Forall₂ InRange bytes ranges := by
  constructor
  · rintro ⟨row, hrow, hall⟩
    obtain ⟨range, ranges, hfst, hbytes, rfl⟩ := forall₂_cons_left_iff.mp hall
    exact ⟨ranges, trailing_of_row first _ hrow (by simpa using hfst), hbytes⟩
  · rintro ⟨ranges, htrail, hbytes⟩
    obtain ⟨range, hrow, hfst⟩ := row_of_trailing htrail
    exact ⟨_, hrow, .cons hfst hbytes⟩

theorem not_sequence_nil : ¬Sequence [] := by
  rintro ⟨row, hrow, hnil⟩
  cases hnil
  exact absurd hrow (by decide)

theorem wellFormed_nil : WellFormed [] := ⟨[], by simp, rfl⟩

theorem WellFormed.cons {s rest : List Byte} (hs : Sequence s) (hrest : WellFormed rest) : WellFormed (s ++ rest) := by
  obtain ⟨sequences, hseqs, rfl⟩ := hrest
  exact ⟨s :: sequences, forall_mem_cons.mpr ⟨hs, hseqs⟩, rfl⟩

theorem wellFormed_cons_iff : WellFormed (first :: bytes) ↔
      ∃ ranges rest, trailing first = some ranges ∧ strip ranges bytes = some rest ∧ WellFormed rest := by
  constructor
  · rintro ⟨_ | ⟨s, sequences⟩, hseqs, hflat⟩
    · cases hflat
    obtain ⟨hs, hrest⟩ := forall_mem_cons.mp hseqs
    rcases s with _ | ⟨b, s⟩
    · exact absurd hs not_sequence_nil
    obtain ⟨ranges, htrail, hranges⟩ := sequence_cons_iff.mp hs
    obtain ⟨rfl, rfl⟩ := cons.inj hflat
    exact ⟨ranges, sequences.flatten, htrail, strip_eq_some_iff.mpr ⟨s, hranges, rfl⟩, sequences, hrest, rfl⟩
  · rintro ⟨ranges, rest, htrail, hstrip, hrest⟩
    obtain ⟨s, hranges, rfl⟩ := strip_eq_some_iff.mp hstrip
    exact WellFormed.cons (sequence_cons_iff.mpr ⟨ranges, htrail, hranges⟩) hrest

abbrev Character := {bytes : List Byte // Sequence bytes}

def text (cs : List Character) : List Byte := cs.flatMap Subtype.val

@[simp] theorem text_nil : text [] = [] := rfl

@[simp] theorem text_cons (c : Character) (cs : List Character) : text (c :: cs) = c.1 ++ text cs := rfl

@[simp] theorem text_append (a b : List Character) : text (a ++ b) = text a ++ text b := List.flatMap_append

theorem wellFormed_iff_text : WellFormed bytes ↔ ∃ cs, bytes = text cs := by
  constructor
  · rintro ⟨sequences, hseqs, rfl⟩
    refine ⟨sequences.attach.map fun s => ⟨s.1, hseqs s.1 s.2⟩, ?_⟩
    rw [text, flatMap_map, flatMap, attach_map_subtype_val]
  · rintro ⟨cs, rfl⟩
    refine ⟨cs.map Subtype.val, fun s hs => ?_, rfl⟩
    obtain ⟨c, -, rfl⟩ := mem_map.mp hs
    exact c.2

theorem exists_first (c : Character) : ∃ first rest, c.1 = first :: rest := by
  rcases h : c.1 with _ | ⟨first, rest⟩
  · exact absurd (h ▸ c.2) not_sequence_nil
  · exact ⟨first, rest, rfl⟩

theorem text_eq_nil_iff {cs : List Character} : text cs = [] ↔ cs = [] := by
  rcases cs with _ | ⟨c, cs⟩
  · simp
  · obtain ⟨first, rest, hc⟩ := exists_first c
    simp [hc]

end Utf8

end MojoProse.Stdlib
