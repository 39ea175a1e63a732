import Mathlib.Data.List.Nodup

/-!
# Map literals

A query gives an argument of the `Map` scalar (`mapScalar`, the type of Object and Map fields) as
a GraphQL literal, which `graphql-go` hands to the scalar's `ParseLiteral`. That returns nil for a
literal that is not an object, and otherwise `parseValueToMap` of it: a Go value built by
recursion on the literal, in which an object's fields are written into a Go map in the order of
the document, a list's values are appended in order, a string, an integer and a float give the
text of the literal and a boolean its value, and a variable or an enum value gives nil.

**Theorem (`parseLiteral_get`).** `ParseLiteral` of an object literal is a map holding exactly
the names of the literal's fields, each at most once, and at each name the value of the last
field of that name: a name given twice keeps its second value. Every other literal gives nil.
-/

namespace Bubbly

namespace GraphQL

mutual
/-- An `ast.Value` of a GraphQL document. -/
inductive AstValue
  | variable (name : String)
  | intValue (value : String)
  | floatValue (value : String)
  | stringValue (value : String)
  | booleanValue (value : Bool)
  | enumValue (value : String)
  | listValue (values : AstValues)
  | objectValue (fields : ObjectFields)

inductive AstValues
  | nil
  | cons (value : AstValue) (rest : AstValues)

/-- The `ast.ObjectField`s of an object literal, each a name and a value, in the order of the
document. -/
inductive ObjectFields
  | nil
  | cons (name : String) (value : AstValue) (rest : ObjectFields)
end

/-- `GetKind()`, as the `kinds` constants spell it. -/
def AstValue.getKind : AstValue → String
  | .variable _ => "Variable"
  | .intValue _ => "IntValue"
  | .floatValue _ => "FloatValue"
  | .stringValue _ => "StringValue"
  | .booleanValue _ => "BooleanValue"
  | .enumValue _ => "EnumValue"
  | .listValue _ => "ListValue"
  | .objectValue _ => "ObjectValue"

/-- The value of the last field named `k`. -/
def ObjectFields.lastValue? (k : String) : ObjectFields → Option AstValue
  | .nil => none
  | .cons name v rest => (rest.lastValue? k).or (if name = k then some v else none)

end GraphQL

open GraphQL

mutual
/-- A Go `interface{}` value, of the kinds `parseValueToMap` builds. -/
inductive GoValue
  | nil
  | string (value : String)
  | bool (value : Bool)
  | list (values : GoValues)
  | map (entries : GoEntries)

inductive GoValues
  | nil
  | cons (value : GoValue) (rest : GoValues)

/-- A `map[string]interface{}`, read by first occurrence. -/
inductive GoEntries
  | nil
  | cons (key : String) (value : GoValue) (rest : GoEntries)
end

/-- `m[k]` of a `map[string]interface{}`. -/
def GoEntries.get? (k : String) : GoEntries → Option GoValue
  | .nil => none
  | .cons key v m => if key = k then some v else m.get? k

/-- `m[k] = v`: the first entry of the key replaced, or one appended. -/
def GoEntries.set (k : String) (v : GoValue) : GoEntries → GoEntries
  | .nil => .cons k v .nil
  | .cons key w m => if key = k then .cons k v m else .cons key w (m.set k v)

def GoEntries.keys : GoEntries → List String
  | .nil => []
  | .cons key _ m => key :: m.keys

mutual
def parseValueToMap : AstValue → GoValue
  | .stringValue s => .string s
  | .booleanValue b => .bool b
  | .intValue s => .string s
  | .floatValue s => .string s
  | .objectValue fields => .map (parseObjectFields fields .nil)
  | .listValue values => .list (parseListValues values)
  | .variable _ => .nil
  | .enumValue _ => .nil

/-- The loop of `parseValueToMap` over an object's fields: `obj[name] = parseValueToMap(value)`
for each, in order. -/
def parseObjectFields : ObjectFields → GoEntries → GoEntries
  | .nil, obj => obj
  | .cons name v rest, obj => parseObjectFields rest (obj.set name (parseValueToMap v))

/-- The loop of `parseValueToMap` over a list's values, appending each. -/
def parseListValues : AstValues → GoValues
  | .nil => .nil
  | .cons v rest => .cons (parseValueToMap v) (parseListValues rest)
end

/-- The `ParseLiteral` of `mapScalar`. Its `Serialize` and `ParseValue` return their argument. -/
def mapScalarParseLiteral (astValue : AstValue) : GoValue :=
  if astValue.getKind ≠ "ObjectValue" then .nil else parseValueToMap astValue

@[simp] theorem GoEntries.get?_nil (k : String) : GoEntries.nil.get? k = none :=
  rfl

@[simp] theorem GoEntries.get?_set (k k' : String) (v : GoValue) :
    ∀ m : GoEntries, (m.set k v).get? k' = if k = k' then some v else m.get? k'
  | .nil => rfl
  | .cons key w m => by
    by_cases h : key = k
    · subst h
      by_cases hk : key = k' <;> simp [GoEntries.set, GoEntries.get?, hk]
    · by_cases hk : key = k'
      · subst hk
        simp [GoEntries.set, GoEntries.get?, h, Ne.symm h]
      · simp [GoEntries.set, GoEntries.get?, h, hk, GoEntries.get?_set k k' v m]

theorem GoEntries.keys_set (k : String) (v : GoValue) :
    ∀ m : GoEntries, (m.set k v).keys = if k ∈ m.keys then m.keys else m.keys ++ [k]
  | .nil => rfl
  | .cons key w m => by
    by_cases h : key = k
    · subst h
      simp [GoEntries.set, GoEntries.keys]
    · simp only [GoEntries.set, h, if_false, GoEntries.keys, GoEntries.keys_set k v m,
        List.mem_cons, Ne.symm h, false_or]
      split <;> rfl

theorem GoEntries.nodup_keys_set (k : String) (v : GoValue) {m : GoEntries} (h : m.keys.Nodup) :
    (m.set k v).keys.Nodup := by
  rw [GoEntries.keys_set]
  split
  · exact h
  · next hk => exact List.nodup_append.mpr ⟨h, List.nodup_singleton k, by simpa using hk⟩

/-- **The fields loop.** After the loop, a name holds the value of the last field of that name,
or what the map held before; and the keys stay distinct. -/
theorem parseObjectFields_spec : ∀ (fields : ObjectFields) (obj : GoEntries),
    (∀ k, (parseObjectFields fields obj).get? k =
      ((fields.lastValue? k).map parseValueToMap).or (obj.get? k)) ∧
    (obj.keys.Nodup → (parseObjectFields fields obj).keys.Nodup)
  | .nil, obj => ⟨fun k => rfl, id⟩
  | .cons name v rest, obj => by
    obtain ⟨hget, hnodup⟩ := parseObjectFields_spec rest (obj.set name (parseValueToMap v))
    refine ⟨fun k => ?_, fun h => hnodup (GoEntries.nodup_keys_set name _ h)⟩
    rw [parseObjectFields, hget, ObjectFields.lastValue?, GoEntries.get?_set]
    cases rest.lastValue? k <;> by_cases hk : name = k <;> simp [hk]

/-- **What a `Map` literal gives.** An object literal gives a map whose keys are distinct and
whose value at each name is that of the last field of the name, parsed, and nothing at a name no
field has; any other literal gives nil. -/
theorem parseLiteral_get (astValue : AstValue) :
    (∀ fields, astValue = .objectValue fields → ∃ m, mapScalarParseLiteral astValue = .map m ∧
      m.keys.Nodup ∧ ∀ k, m.get? k = (fields.lastValue? k).map parseValueToMap) ∧
    ((∀ fields, astValue ≠ .objectValue fields) → mapScalarParseLiteral astValue = .nil) := by
  refine ⟨?_, fun h => ?_⟩
  · rintro fields rfl
    obtain ⟨hget, hnodup⟩ := parseObjectFields_spec fields .nil
    exact ⟨_, rfl, hnodup List.nodup_nil, fun k => by simpa using hget k⟩
  · cases astValue with
    | objectValue fields => exact absurd rfl (h fields)
    | _ => rfl

/-- A name given twice keeps its second value; an integer gives its text. -/
theorem parseLiteral_get_twice : ∃ m, mapScalarParseLiteral (.objectValue (.cons "env"
    (.stringValue "dev") (.cons "env" (.intValue "2") .nil))) = .map m ∧
      m.get? "env" = some (.string "2") :=
  let ⟨m, hm, _, hget⟩ := (parseLiteral_get _).1 _ rfl
  ⟨m, hm, by rw [hget]; rfl⟩

end Bubbly
