import Mathlib.Data.List.Basic
import Mathlib.Data.List.Nodup

/-!
# cty values

The HCL parser's symbol table stores values of the go-cty library, which is not among the
sources. This module models the part of cty the symbol table reads.

**Values.** A value is null, unknown (of a type), a known object with its attributes, or a known
value of another type (a primitive, a collection, a tuple), which the symbol table never looks
into and which is told apart here by a label. Marks are left out: the parser marks no value.

**Maps.** The Go map `AsValueMap` returns is a list of entries read by first occurrence: an entry
shadowed by an earlier one of its name is never seen, `Attrs.set` replaces the first entry of a
name or appends one, as a Go map write does, and `Attrs.entries` are the entries a `range` loop
meets. Go leaves the order of that loop unspecified; a `MapOrder` is one choice of it.

**Names.** cty keeps attribute names in Unicode normal form C: `ObjectVal` normalizes the names of
the map it is given, and `GetAttr` and `HasAttribute` normalize the name they are asked for. The
normalization is the parameter `nfc`, as its tables are not part of the model; the Go map is
indexed by raw names. Where two names of a map normalize to one, `ObjectVal` keeps the value its
loop meets last.

**Paths.** `Path.Apply` of the `GetAttr` steps the symbol table builds: a step fails on a null,
on a value whose type is not an object type and on an object without the attribute; on an
unknown object it gives an unknown of the attribute's type.
-/

namespace Bubbly

namespace Cty

mutual
/-- A cty type, as far as the symbol table tells types apart: an object type with the types of
its attributes, or any other type. -/
inductive CtyType
  | object (attrs : AttrTypes)
  | other
  deriving DecidableEq, Repr

inductive AttrTypes
  | nil
  | cons (name : String) (type : CtyType) (rest : AttrTypes)
  deriving DecidableEq, Repr
end

mutual
/-- A `cty.Value`; `null` stands for every null value, `cty.NilVal` among them. -/
inductive Value
  | null
  | unknown (type : CtyType)
  | object (attrs : Attrs)
  | other (label : String)
  deriving DecidableEq, Repr

/-- The attributes of a known object, read by first occurrence. -/
inductive Attrs
  | nil
  | cons (name : String) (value : Value) (rest : Attrs)
  deriving DecidableEq, Repr
end

def AttrTypes.get? (name : String) : AttrTypes → Option CtyType
  | .nil => none
  | .cons k t m => if k = name then some t else m.get? name

/-- `m[name]` on the Go map of an object's attributes, by the raw name. -/
def Attrs.get? (name : String) : Attrs → Option Value
  | .nil => none
  | .cons k v m => if k = name then some v else m.get? name

/-- `m[name] = v` on the Go map of an object's attributes, by the raw name. -/
def Attrs.set (name : String) (v : Value) : Attrs → Attrs
  | .nil => .cons name v .nil
  | .cons k w m => if k = name then .cons name v m else .cons k w (m.set name v)

/-- The entries a `range` loop over the map meets: each name once, with the value read there. -/
def Attrs.entries : Attrs → List (String × Value)
  | .nil => []
  | .cons k v m => (k, v) :: m.entries.filter (·.1 != k)

@[simp] theorem Attrs.get?_nil (name : String) : Attrs.nil.get? name = none :=
  rfl

/-- A write at one name is read back there and leaves every other name. -/
@[simp] theorem Attrs.get?_set (name k : String) (v : Value) :
    ∀ m : Attrs, (m.set name v).get? k = if name = k then some v else m.get? k
  | .nil => rfl
  | .cons k' w m => by
    by_cases h : k' = name
    · subst h
      by_cases hk : k' = k <;> simp [Attrs.set, Attrs.get?, hk]
    · by_cases hk : k' = k
      · subst hk
        simp [Attrs.set, Attrs.get?, h, Ne.symm h]
      · simp [Attrs.set, Attrs.get?, h, hk, Attrs.get?_set name k v m]

theorem Attrs.mem_entries {k : String} {v : Value} :
    ∀ m : Attrs, (k, v) ∈ m.entries ↔ m.get? k = some v
  | .nil => by simp [Attrs.entries]
  | .cons k' w m => by
    by_cases hk : k' = k
    · subst hk
      simp [Attrs.entries, Attrs.get?, eq_comm]
    · simp [Attrs.entries, Attrs.get?, hk, Ne.symm hk, Attrs.mem_entries m]

theorem Attrs.nodup_entries : ∀ m : Attrs, (m.entries.map Prod.fst).Nodup
  | .nil => List.nodup_nil
  | .cons k _ m => by
    rw [Attrs.entries, List.map_cons, List.nodup_cons]
    exact ⟨by simp, (m.nodup_entries.sublist ((List.filter_sublist _).map _))⟩

/-- Every name of the map is in normal form. -/
def Attrs.normal (nfc : String → String) (m : Attrs) : Bool :=
  m.entries.all fun e => nfc e.1 == e.1

theorem Attrs.normal_iff {nfc : String → String} {m : Attrs} :
    m.normal nfc = true ↔ ∀ k v, m.get? k = some v → nfc k = k := by
  simp [Attrs.normal, ← Attrs.mem_entries]

theorem Attrs.normal_set {nfc : String → String} {m : Attrs} (hm : m.normal nfc = true)
    {name : String} (hname : nfc name = name) (v : Value) : (m.set name v).normal nfc = true := by
  rw [Attrs.normal_iff] at hm ⊢
  intro k w hk
  rw [Attrs.get?_set] at hk
  split at hk
  · subst k
    exact hname
  · exact hm k w hk

/-- The order in which a `range` loop meets the entries of a map: any order of them. -/
structure MapOrder where
  range : Attrs → List (String × Value)
  perm : ∀ m, (range m).Perm m.entries

/-- The loop meets the entries as the map lists them. -/
def MapOrder.listed : MapOrder :=
  ⟨Attrs.entries, fun _ => List.Perm.refl _⟩

/-- The loop meets the entries in the reverse of the listed order. -/
def MapOrder.reversed : MapOrder :=
  ⟨fun m => m.entries.reverse, fun m => List.reverse_perm m.entries⟩

namespace Value

def isNull : Value → Bool
  | .null => true
  | _ => false

/-- `Type().IsObjectType()`; the zero value `cty.NilVal` has no type, and is the only null the
symbol table ever asks. -/
def isObjectType : Value → Bool
  | .object _ => true
  | .unknown (.object _) => true
  | _ => false

/-- `AsValueMap` of a value of object type: a known object's attributes, and the empty (nil) map
for an unknown object without attributes; none where it panics, on an unknown object with
attributes, whose elements cannot be iterated. -/
def asValueMap : Value → Option Attrs
  | .object attrs => some attrs
  | .unknown (.object .nil) => some .nil
  | _ => none

/-- A value the symbol table can step into and rebuild as it was: null, or a known object whose
names are in normal form, as those of every object `ObjectVal` builds are. -/
def isNullOrNormalObject (nfc : String → String) : Value → Bool
  | .null => true
  | .object attrs => attrs.normal nfc
  | _ => false

end Value

def nilVal : Value := .null

def emptyObjectVal : Value := .object .nil

/-- `cty.ObjectVal`: the object of the map's entries, met in the loop's order, each name
normalized; of two names that normalize to one, the later met wins. -/
def objectVal (nfc : String → String) (ord : MapOrder) (attrs : Attrs) : Value :=
  .object ((ord.range attrs).foldl (fun m e => m.set (nfc e.1) e.2) .nil)

/-- `GetAttrStep.Apply`: none on a null value, on a value whose type is not an object type and
on an object without the normalized attribute; otherwise `GetAttr`, which on an unknown object is
an unknown of the attribute's type. -/
def getAttrStep (nfc : String → String) (name : String) (val : Value) : Option Value :=
  if val.isNull then none
  else match val with
    | .object attrs => attrs.get? (nfc name)
    | .unknown (.object attrTypes) => (attrTypes.get? (nfc name)).map .unknown
    | _ => none

/-- `Path.Apply` of a path of `GetAttr` steps, given by their names: each step in turn, stopping
at the first that fails. -/
def applyPath (nfc : String → String) (path : List String) (val : Value) : Option Value :=
  path.foldlM (fun val name => getAttrStep nfc name val) val

section Names

variable {nfc : String → String}

@[simp] theorem applyPath_nil (val : Value) : applyPath nfc [] val = some val :=
  rfl

@[simp] theorem applyPath_cons (name : String) (path : List String) (val : Value) :
    applyPath nfc (name :: path) val = (getAttrStep nfc name val).bind (applyPath nfc path) :=
  rfl

@[simp] theorem getAttrStep_object (name : String) (attrs : Attrs) :
    getAttrStep nfc name (.object attrs) = attrs.get? (nfc name) :=
  rfl

@[simp] theorem getAttrStep_null (name : String) : getAttrStep nfc name .null = none :=
  rfl

theorem lookup_eq_none_of_not_mem {l : List (String × Value)} {k : String}
    (h : k ∉ l.map Prod.fst) : l.lookup k = none :=
  List.lookup_eq_none_iff.mpr fun p hp => bne_iff_ne.mpr fun hk =>
    h (List.mem_map.mpr ⟨p, hp, hk.symm⟩)

theorem lookup_cons_pair (k k' : String) (v : Value) (l : List (String × Value)) :
    ((k', v) :: l).lookup k = if k = k' then some v else l.lookup k := by
  rw [List.lookup_cons]
  by_cases hk : k = k'
  · simp [hk]
  · simp [hk, beq_false_of_ne hk]

/-- Writing the entries of a list with distinct names in turn: a name of the list reads its
entry, and any other what it read before. -/
theorem Attrs.get?_foldl_set {l : List (String × Value)} (hl : (l.map Prod.fst).Nodup)
    (acc : Attrs) (k : String) :
    (l.foldl (fun m e => m.set e.1 e.2) acc).get? k = (l.lookup k).or (acc.get? k) := by
  induction l generalizing acc with
  | nil => rfl
  | cons e l ih =>
    obtain ⟨k', v'⟩ := e
    rw [List.map_cons, List.nodup_cons] at hl
    rw [List.foldl_cons, ih hl.2, Attrs.get?_set, lookup_cons_pair]
    by_cases hk : k' = k
    · subst hk
      simp [lookup_eq_none_of_not_mem hl.1]
    · simp [hk, Ne.symm hk]

theorem lookup_eq_some_iff_mem {l : List (String × Value)} (hl : (l.map Prod.fst).Nodup)
    {k : String} {v : Value} : l.lookup k = some v ↔ (k, v) ∈ l := by
  induction l with
  | nil => simp
  | cons e l ih =>
    obtain ⟨k', v'⟩ := e
    rw [List.map_cons, List.nodup_cons] at hl
    rw [List.mem_cons, ← ih hl.2, lookup_cons_pair]
    by_cases hk : k = k'
    · subst hk
      simp [lookup_eq_none_of_not_mem hl.1, eq_comm]
    · simp [hk]

theorem MapOrder.mem_range (ord : MapOrder) {m : Attrs} {k : String} {v : Value} :
    (k, v) ∈ ord.range m ↔ m.get? k = some v :=
  (ord.perm m).mem_iff.trans (Attrs.mem_entries m)

theorem MapOrder.nodup_range (ord : MapOrder) (m : Attrs) : ((ord.range m).map Prod.fst).Nodup :=
  ((ord.perm m).map _).nodup_iff.mpr m.nodup_entries

theorem objectVal_of_normal (ord : MapOrder) {m : Attrs} (hm : m.normal nfc = true) :
    objectVal nfc ord m = .object ((ord.range m).foldl (fun m e => m.set e.1 e.2) .nil) :=
  congrArg Value.object <| List.foldl_ext _ _ _ fun _ e he => by
    rw [Attrs.normal_iff.mp hm e.1 e.2 (ord.mem_range.mp he)]

/-- **`ObjectVal` of a map with normal names** reads as the map, whatever the loop's order. -/
theorem getAttrStep_objectVal (ord : MapOrder) {m : Attrs} (hm : m.normal nfc = true)
    (name : String) : getAttrStep nfc name (objectVal nfc ord m) = m.get? (nfc name) := by
  rw [objectVal_of_normal ord hm, getAttrStep_object, Attrs.get?_foldl_set (ord.nodup_range m),
    Attrs.get?_nil, Option.or_none]
  exact Option.ext fun v => (lookup_eq_some_iff_mem (ord.nodup_range m)).trans ord.mem_range

/-- `ObjectVal` of a map with normal names builds an object with normal names. -/
theorem isNullOrNormalObject_objectVal (ord : MapOrder) {m : Attrs} (hm : m.normal nfc = true) :
    (objectVal nfc ord m).isNullOrNormalObject nfc = true := by
  suffices ∀ (l : List (String × Value)) (acc : Attrs), (∀ e ∈ l, nfc e.1 = e.1) →
      acc.normal nfc = true → (l.foldl (fun m e => m.set e.1 e.2) acc).normal nfc = true by
    rw [objectVal_of_normal ord hm]
    exact this _ _ (fun e he => Attrs.normal_iff.mp hm e.1 e.2 (ord.mem_range.mp he)) rfl
  intro l
  induction l with
  | nil => exact fun _ _ h => h
  | cons e l ih =>
    intro acc hl hacc
    exact ih _ (fun e' he' => hl e' (List.mem_cons_of_mem _ he'))
      (Attrs.normal_set hacc (hl e (List.mem_cons_self _ _)) _)

end Names

end Cty

end Bubbly
