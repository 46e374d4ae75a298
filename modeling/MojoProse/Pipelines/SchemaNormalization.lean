import Mathlib.Data.List.Forall2
import Mathlib.Data.Nat.Notation
import Mathlib.Tactic.Common

/-! `normalize_response_format_schema` (`tool_call_normalization.py`), and which values the schemas before and
    after it accept.

    The pass gives a type to every untyped schema that talks about objects. That narrows the schema itself; what
    it does to the schema around it depends on the keyword, as with the polarity of a subformula. -/

namespace MojoProse.Pipelines

open List

inductive Json where
  | null
  | bool (b : Bool)
  | number (q : Rat)
  | string (s : String)
  | array (items : List Json)
  | object (fields : List (String × Json))

/-- The values of `type`. -/
inductive JsonType where
  | null | boolean | number | integer | string | array | object
  deriving DecidableEq

def JsonType.accepts : JsonType → Json → Bool
  | .null, .null => true
  | .boolean, .bool _ => true
  | .number, .number _ => true
  | .integer, .number q => q.den = 1
  | .string, .string _ => true
  | .array, .array _ => true
  | .object, .object _ => true
  | _, _ => false

/-- The place of a subschema: its keyword and, in a mapping, its key (`cond` is `if`). -/
inductive Slot where
  | properties (name : String)
  | additionalProperties
  | patternProperties (pattern : String)
  | items | prefixItems | contains
  | allOf | anyOf | oneOf
  | not | cond | thenCase | elseCase
  deriving DecidableEq

/-- The keywords whose value is a mapping or a list, and may be empty. -/
inductive Container where
  | properties | patternProperties | prefixItems | allOf | anyOf | oneOf
  deriving DecidableEq

/-- `type` and `required` where present, the containers that are present and empty, and the subschemas in their order.
    -/
inductive Schema where
  | bool (b : Bool)
  | node (type : Option (List JsonType)) (required : Option (List String)) (empty : List Container)
      (subschemas : List (Slot × Schema))

/-- The slots of the keywords in `_OBJECT_IMPLYING_KEYWORDS`, `required` apart. -/
def Slot.objectImplying : Slot → Bool
  | .properties _ | .additionalProperties | .patternProperties _ => true
  | _ => false

/-- `any(k in node for k in _OBJECT_IMPLYING_KEYWORDS)`. -/
def objectImplied (required : Option (List String)) (empty : List Container) (subschemas : List (Slot × Schema)) :
    Bool :=
  required.isSome || empty.any (fun k => k = .properties || k = .patternProperties) ||
    subschemas.any (·.1.objectImplying)

mutual
def normalizeSubschema : Schema → Schema
  | .bool b => .bool b
  | .node type required empty subschemas =>
    .node (if type = none ∧ objectImplied required empty subschemas then some [.object] else type) required empty
      (normalizeSubschemas subschemas)
/-- Its recursion into the subschemas: every slot is among the keys it walks. -/
def normalizeSubschemas : List (Slot × Schema) → List (Slot × Schema)
  | [] => []
  | (slot, child) :: rest => (slot, normalizeSubschema child) :: normalizeSubschemas rest
end

def normalizeResponseFormatSchema (schema : Schema) : Schema := normalizeSubschema schema

section Validity
variable (isMatch : String → String → Bool)

def under (slot : Slot) (children : List (Slot × (Json → Bool))) : List (Json → Bool) :=
  (children.filter (·.1 = slot)).map Prod.snd

/-- A property that `additionalProperties` does not apply to. -/
def Slot.names (name : String) : Slot → Bool
  | .properties n => n = name
  | .patternProperties pattern => isMatch pattern name
  | _ => false

/-- What one subschema asks of a value by itself. -/
def childHolds (children : List (Slot × (Json → Bool))) (slot : Slot) (P : Json → Bool) (v : Json) : Bool :=
  match slot, v with
  | .properties name, .object fields => fields.all fun f => f.1 != name || P f.2
  | .patternProperties pattern, .object fields => fields.all fun f => !isMatch pattern f.1 || P f.2
  | .additionalProperties, .object fields =>
    fields.all fun f => children.any (·.1.names isMatch f.1) || P f.2
  | .items, .array items => (items.drop (under .prefixItems children).length).all P
  | .contains, .array items => items.any P
  | .allOf, v => P v
  | .not, v => !P v
  | _, _ => true

def requiredHolds (names : List String) : Json → Bool
  | .object fields => names.all fun n => fields.any (·.1 = n)
  | _ => true

def prefixHolds (children : List (Slot × (Json → Bool))) : Json → Bool
  | .array items => ((under .prefixItems children).zip items).all fun p => p.1 p.2
  | _ => true

/-- The keywords that look at several subschemas together. -/
def groupsHold (empty : List Container) (children : List (Slot × (Json → Bool))) (v : Json) : Bool :=
  ((under .anyOf children).any (· v) || (under .anyOf children).isEmpty && .anyOf ∉ empty) &&
  ((under .oneOf children).countP (· v) = 1 || (under .oneOf children).isEmpty && .oneOf ∉ empty) &&
  (under .cond children).all fun P =>
    if P v then (under .thenCase children).all (· v) else (under .elseCase children).all (· v)

/-- A value under a schema whose subschemas accept what `children` say. -/
def nodeHolds (type : Option (List JsonType)) (required : Option (List String)) (empty : List Container)
    (children : List (Slot × (Json → Bool))) (v : Json) : Bool :=
  type.all (·.any (·.accepts v)) && required.all (requiredHolds · v) &&
    children.all (fun c => childHolds isMatch children c.1 c.2 v) && prefixHolds children v &&
    groupsHold empty children v

mutual
/-- Validity under JSON Schema 2020-12. -/
def valid : Schema → Json → Bool
  | .bool b => fun _ => b
  | .node type required empty subschemas => nodeHolds isMatch type required empty (validAll subschemas)
def validAll : List (Slot × Schema) → List (Slot × (Json → Bool))
  | [] => []
  | (slot, child) :: rest => (slot, valid child) :: validAll rest
end

end Validity

/-- How a predicate in a slot may change for the schema around it to accept no less. -/
def Slot.Weakens (slot : Slot) (P Q : Json → Bool) : Prop :=
  match slot with
  | .not => ∀ v, Q v → P v
  | .oneOf | .cond => P = Q
  | _ => ∀ v, P v → Q v

/-- The same slots, each with a predicate that weakens. -/
def Weaker (children children' : List (Slot × (Json → Bool))) : Prop :=
  Forall₂ (fun c c' => c'.1 = c.1 ∧ c.1.Weakens c.2 c'.2) children children'

theorem Weaker.under {children children' : List (Slot × (Json → Bool))} (h : Weaker children children')
    (slot : Slot) : Forall₂ slot.Weakens (under slot children) (under slot children') := by
  induction h with
  | nil => exact .nil
  | @cons c c' cs cs' hc _ ih =>
    obtain ⟨hslot, hw⟩ := hc
    rcases eq_or_ne c.1 slot with rfl | hne
    · simpa [MojoProse.Pipelines.under, hslot] using Forall₂.cons hw ih
    · simpa [MojoProse.Pipelines.under, hslot, hne] using ih

theorem Weaker.any_names {children children' : List (Slot × (Json → Bool))} (h : Weaker children children')
    (f : Slot → Bool) : children'.any (f ·.1) = children.any (f ·.1) := by
  induction h with
  | nil => rfl
  | cons hc _ ih => rw [any_cons, any_cons, ih, hc.1]

section

variable {α β : Type} {R : α → β → Prop} {p : α → Bool} {q : β → Bool} {l : List α}
  {l' : List β} (h : Forall₂ R l l') (himp : ∀ a b, R a b → p a → q b)
include h himp

theorem all_of_forall₂ (hall : l.all p) : l'.all q := by
  induction h with
  | nil => rfl
  | cons hab _ ih =>
    rw [all_cons, Bool.and_eq_true] at hall ⊢
    exact ⟨himp _ _ hab hall.1, ih hall.2⟩

theorem any_of_forall₂ (hany : l.any p) : l'.any q := by
  induction h with
  | nil => exact hany
  | cons hab _ ih =>
    rw [any_cons, Bool.or_eq_true] at hany ⊢
    exact hany.imp (himp _ _ hab) ih

end

section Mono
variable {isMatch : String → String → Bool} {children children' : List (Slot × (Json → Bool))} {v : Json}
  {empty : List Container}

section
variable (h : Weaker children children')
include h

theorem childHolds_mono {slot : Slot} {P Q : Json → Bool} (hw : slot.Weakens P Q)
    (hP : childHolds isMatch children slot P v = true) : childHolds isMatch children' slot Q v = true := by
  have hall : ∀ {α : Type} {l : List α} {g g' : α → Bool}, (∀ a, g a → g' a) → l.all g → l.all g' :=
    fun himp => all_of_forall₂ (R := Eq) (forall₂_refl _) fun a b hab => hab ▸ himp a
  have hor : ∀ {b : Bool} {x : Json}, (∀ v, P v → Q v) → (b || P x) → (b || Q x) := fun hw => by
    simpa using Or.imp_right (hw _)
  have hlen := (h.under .prefixItems).length_eq
  cases slot <;> cases v <;> simp only [childHolds, Slot.Weakens] at hw hP ⊢
  case properties.object => exact hall (fun _ => hor hw) hP
  case patternProperties.object => exact hall (fun _ => hor hw) hP
  case additionalProperties.object =>
    simp only [h.any_names (Slot.names isMatch _)]
    exact hall (fun _ => hor hw) hP
  case items.array =>
    rw [← hlen]
    exact hall hw hP
  case contains.array =>
    exact any_of_forall₂ (R := Eq) (forall₂_refl _) (fun a b hab => hab ▸ hw a) hP
  all_goals first
    | exact hw _ hP
    | exact (Bool.not_eq_true' _).mpr (Bool.eq_false_iff.mpr fun hq => by simp [hw _ hq] at hP)

theorem prefixHolds_mono (hv : prefixHolds children v = true) : prefixHolds children' v = true := by
  cases v with
  | array items =>
    simp only [prefixHolds] at hv ⊢
    have hps := h.under .prefixItems
    generalize under .prefixItems children = ps at hps hv
    generalize under .prefixItems children' = qs at hps
    induction hps generalizing items with
    | nil => rfl
    | cons hpq _ ih =>
      rcases items with _ | ⟨x, items⟩
      · rfl
      · rw [zip_cons_cons, all_cons, Bool.and_eq_true] at hv ⊢
        exact ⟨hpq x hv.1, ih items hv.2⟩
  | _ => rfl

theorem groupsHold_mono (hv : groupsHold empty children v = true) : groupsHold empty children' v = true := by
  have hany := h.under .anyOf
  have hone : under .oneOf children = under .oneOf children' := forall₂_eq_eq_eq ▸ h.under .oneOf
  have hcond : under .cond children = under .cond children' := forall₂_eq_eq_eq ▸ h.under .cond
  simp only [groupsHold, Bool.and_eq_true, Bool.or_eq_true] at hv ⊢
  obtain ⟨⟨hanyv, honev⟩, hcondv⟩ := hv
  rw [hone] at honev
  rw [hcond] at hcondv
  refine ⟨⟨hanyv.imp (any_of_forall₂ hany fun P Q hPQ => hPQ v) fun h => ?_, honev⟩, ?_⟩
  · rw [List.isEmpty_iff] at h ⊢
    exact ⟨forall₂_nil_left_iff.mp (h.1 ▸ hany), h.2⟩
  · refine all_of_forall₂ (R := Eq) (forall₂_refl _) (fun P Q hPQ hP => ?_) hcondv
    subst hPQ
    split_ifs at hP ⊢
    · exact all_of_forall₂ (h.under .thenCase) (fun P Q hPQ => hPQ v) hP
    · exact all_of_forall₂ (h.under .elseCase) (fun P Q hPQ => hPQ v) hP

end

theorem nodeHolds_mono {type type' : Option (List JsonType)} {required : Option (List String)}
    (htype : type' = type ∨ type' = none) (h : Weaker children children')
    (hv : nodeHolds isMatch type required empty children v = true) :
    nodeHolds isMatch type' required empty children' v = true := by
  simp only [nodeHolds, Bool.and_eq_true] at hv ⊢
  obtain ⟨⟨⟨⟨htypev, hreq⟩, hchildren⟩, hprefix⟩, hgroups⟩ := hv
  refine ⟨⟨⟨⟨?_, hreq⟩, ?_⟩, prefixHolds_mono h hprefix⟩, groupsHold_mono h hgroups⟩
  · rcases htype with rfl | rfl
    · exact htypev
    · rfl
  · refine all_of_forall₂ h (fun c c' hc hcv => ?_) hchildren
    rw [hc.1]
    exact childHolds_mono h hc.2 hcv

end Mono

/-- What a slot asks of its schema; `kept` says whether that may stand at a positive and at a negative position. -/
def Slot.kept (slot : Slot) (positive : Bool) (kept : Bool → Bool) : Bool :=
  match slot with
  | .not => kept (!positive)
  | .oneOf | .cond => kept true && kept false
  | _ => kept positive

mutual
/-- No schema that gets a type stands at a negative position, or under `oneOf` or `if`, whose position is both. -/
def polarityKept : Schema → Bool → Bool
  | .bool _, _ => true
  | .node type required empty subschemas, positive =>
    (positive || type.isSome || !objectImplied required empty subschemas) && polaritiesKept subschemas positive
def polaritiesKept : List (Slot × Schema) → Bool → Bool
  | [], _ => true
  | (slot, child) :: rest, positive => slot.kept positive (polarityKept child) && polaritiesKept rest positive
end

theorem Slot.weakens_of_kept (slot : Slot) {kept : Bool → Bool} {P Q : Json → Bool}
    (hpos : kept true = true → ∀ v, P v → Q v) (hneg : kept false = true → ∀ v, Q v → P v) :
    (slot.kept true kept = true → slot.Weakens P Q) ∧ (slot.kept false kept = true → slot.Weakens Q P) := by
  have hboth : kept true = true → kept false = true → P = Q :=
    fun h h' => funext fun v => Bool.eq_iff_iff.mpr ⟨hpos h v, hneg h' v⟩
  cases slot <;> simp only [Slot.kept, Slot.Weakens, Bool.not_true, Bool.not_false, Bool.and_eq_true]
  case not => exact ⟨hneg, hpos⟩
  case oneOf => exact ⟨fun h => hboth h.1 h.2, fun h => (hboth h.1 h.2).symm⟩
  case cond => exact ⟨fun h => hboth h.1 h.2, fun h => (hboth h.1 h.2).symm⟩
  all_goals exact ⟨hpos, hneg⟩

mutual
theorem normalizeSubschema_polarity (isMatch : String → String → Bool) : ∀ (schema : Schema),
    (polarityKept schema true = true → ∀ v, valid isMatch (normalizeSubschema schema) v → valid isMatch schema v) ∧
    (polarityKept schema false = true → ∀ v, valid isMatch schema v → valid isMatch (normalizeSubschema schema) v)
  | .bool _ => ⟨fun _ _ h => h, fun _ _ h => h⟩
  | .node type required empty subschemas => by
    obtain ⟨hpos, hneg⟩ := normalizeSubschemas_polarity isMatch subschemas
    simp only [polarityKept, Bool.and_eq_true, Bool.or_eq_true, Bool.not_eq_true', Bool.false_eq_true, false_or,
      true_or, true_and, valid, normalizeSubschema]
    refine ⟨fun h v hv => nodeHolds_mono ?_ (hpos h) hv, fun h v hv => nodeHolds_mono (.inl ?_) (hneg h.2) hv⟩
    · split_ifs with htyped
      · exact .inr htyped.1
      · exact .inl rfl
    · refine if_neg fun htyped => ?_
      rcases h.1 with hsome | himplied
      · simp [htyped.1] at hsome
      · simp [himplied] at htyped
theorem normalizeSubschemas_polarity (isMatch : String → String → Bool) : ∀ (subschemas : List (Slot × Schema)),
    (polaritiesKept subschemas true = true →
      Weaker (validAll isMatch (normalizeSubschemas subschemas)) (validAll isMatch subschemas)) ∧
    (polaritiesKept subschemas false = true →
      Weaker (validAll isMatch subschemas) (validAll isMatch (normalizeSubschemas subschemas)))
  | [] => ⟨fun _ => .nil, fun _ => .nil⟩
  | (slot, child) :: rest => by
    obtain ⟨hpos, hneg⟩ := normalizeSubschema_polarity isMatch child
    obtain ⟨hposRest, hnegRest⟩ := normalizeSubschemas_polarity isMatch rest
    obtain ⟨hweak, hweak'⟩ := slot.weakens_of_kept hpos hneg
    simp only [polaritiesKept, Bool.and_eq_true]
    exact ⟨fun h => .cons ⟨rfl, hweak h.1⟩ (hposRest h.2), fun h => .cons ⟨rfl, hweak' h.1⟩ (hnegRest h.2)⟩
end

/-- The pass narrows every schema in which it gives no type at a negative or mixed position. -/
theorem normalizeResponseFormatSchema_narrows (isMatch : String → String → Bool) (schema : Schema)
    (h : polarityKept schema true = true) (v : Json)
    (hv : valid isMatch (normalizeResponseFormatSchema schema) v = true) : valid isMatch schema v = true :=
  (normalizeSubschema_polarity isMatch schema).1 h v hv

/-- An array of untyped objects, and a value of it. -/
theorem normalizeResponseFormatSchema_narrows_items :
    valid (· = ·) (.node none none [] [(.items, .node none (some ["a"]) [] [])]) (.array [.object [("a", .null)]]) =
      true :=
  normalizeResponseFormatSchema_narrows (· = ·) (.node none none [] [(.items, .node none (some ["a"]) [] [])])
    (by decide) (.array [.object [("a", .null)]]) (by decide)

/-- `not: {properties: {}}` accepts nothing; with a type under the `not`, it accepts every value but objects. -/
theorem normalizeResponseFormatSchema_widens_not :
    let schema : Schema := .node none none [] [(.not, .node none none [.properties] [])]
    valid (· = ·) (normalizeResponseFormatSchema schema) .null = true ∧ valid (· = ·) schema .null = false := by
  decide

end MojoProse.Pipelines
