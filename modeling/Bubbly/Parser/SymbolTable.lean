import Bubbly.Parser.Cty
import Bubbly.GraphQL.Types

/-!
# The symbol table

`SymbolTable` holds the variables the HCL parser evaluates expressions against, a Go map from
root names to cty values. `insert` writes a value at a traversal, a root name followed by
attribute names, and rebuilds every object on the way (`insertCtyValue`): an absent or null
value on the way becomes an empty object, and a value of any other type than an object type
stops the process. `lookup` reads the root and applies the attribute path, reporting any failure
as not found. `SetOutputs` stores a module's outputs under `module.<name>`.

Two things stand between what `insert` writes and what `lookup` reads. `insertCtyValue` finds the
attribute to step into in the Go map `AsValueMap` returns, by its raw name, while `GetAttr`
normalizes the name it is given; and `ObjectVal` normalizes the names of the rebuilt map, so that
a name not in normal form can land on an existing attribute, and which of the two values stays is
the order of a `range` loop. The laws below hold for names in normal form, over objects whose
names are in normal form (as those of every object cty builds are), and for every order.

**Theorem (`lookup_of_insert`).** When every proper prefix of a traversal resolves to nothing, to
null or to a known object, `insert` returns, and `lookup` then finds the inserted value there.

**Theorem (`lookup_of_insert_elsewhere`).** Under the same condition, `insert` leaves the
lookup of every traversal that is neither a prefix of it nor has it as a prefix.

**Theorem (`lookup_module_run`).** Over any run of `SetInputs` and `SetOutputs` calls from a
table whose `module` resolves to nothing, to null or to an object, every call returns, and the
outputs found for a module are those of the last `SetOutputs` for it, or, if there is none, what
was found before the run.

**Proof.** `insertCtyValue_cons` says what one level of `insertCtyValue` does on a value it can
step into: it reads the attribute map, recurses on the attribute's value, and writes the result
back, and `getAttrStep_objectVal` reads the rebuilt object as the map written. By induction on
the path, the path then leads to the inserted value (`insertCtyValue_get`), and a path that
leaves the inserted one somewhere leads where it led before (`insertCtyValue_frame`).
-/

namespace Bubbly

open Cty

/-- `SymbolTable`. Its functions are left out: `insert` and `lookup` do not read them. -/
structure SymbolTable where
  Variables : GoMap Value

namespace SymbolTable

section Code

variable (nfc : String → String) (ord : MapOrder)

/-- `insertCtyValue`: `val` placed at the end of the attribute path `traversal` below `pathVal`,
every object on the way rebuilt by `ObjectVal`. None where the code stops: `log.Fatal` at a value
on the way whose type is not an object type, or a panic of `AsValueMap`. -/
def insertCtyValue (pathVal val : Value) : List String → Option Value
  | [] => some val
  | stepAttrName :: traversal => do
    let pathVal := if pathVal.isNull then emptyObjectVal else pathVal
    if pathVal.isObjectType then
      let mapVal ← pathVal.asValueMap
      let nextVal := (mapVal.get? stepAttrName).getD nilVal
      let v ← insertCtyValue nextVal val traversal
      pure (objectVal nfc ord (mapVal.set stepAttrName v))
    else none

/-- `insert`, for a traversal given by the names of its traversers, a root and then attributes.
None where the code panics, on an empty traversal, or where `insertCtyValue` stops. -/
def insert (s : SymbolTable) (val : Value) : List String → Option SymbolTable
  | [] => none
  | rootName :: traversal =>
    let rootVal := (s.Variables.lookup rootName).getD nilVal
    (insertCtyValue nfc ord rootVal val traversal).map fun v => ⟨s.Variables.insert rootName v⟩

def pathFromTraversal (traversal : List String) : List String :=
  traversal.foldl (fun path tr => path ++ [tr]) []

/-- `lookup`: the value at the traversal and true; `cty.NilVal` and false when the traversal is
empty, its root is absent, or a step of its path fails. -/
def lookup (s : SymbolTable) : List String → Value × Bool
  | [] => (nilVal, false)
  | root :: traversal =>
    match s.Variables.lookup root with
    | none => (nilVal, false)
    | some rootVal =>
      match applyPath nfc (pathFromTraversal traversal) rootVal with
      | none => (nilVal, false)
      | some val => (val, true)

def setInputs (s : SymbolTable) (inputs : Value) : SymbolTable :=
  ⟨s.Variables.insert "input" inputs⟩

/-- `SetOutputs`: a module's outputs, under `module.<moduleName>`. -/
def setOutputs (s : SymbolTable) (moduleName : String) (outputs : Value) : Option SymbolTable :=
  s.insert nfc ord outputs ["module", moduleName]

end Code

/-- Normal form C on the names of the examples below: `e` followed by a combining acute accent
composes to `é`, and every other character is left as it is. -/
def composeAcute (s : String) : String :=
  ⟨go s.data⟩
where
  go : List Char → List Char
    | 'e' :: '\u0301' :: cs => '\u00e9' :: go cs
    | c :: cs => c :: go cs
    | [] => []

section Laws

variable {nfc : String → String} (ord : MapOrder)

theorem pathFromTraversal_eq (traversal : List String) : pathFromTraversal traversal = traversal := by
  suffices ∀ acc, traversal.foldl (fun path tr => path ++ [tr]) acc = acc ++ traversal from this []
  induction traversal with
  | nil => simp
  | cons tr traversal ih => intro acc; simp [ih]

theorem lookup_cons (s : SymbolTable) (root : String) (traversal : List String) :
    s.lookup nfc (root :: traversal) =
      ((s.Variables.lookup root).bind (applyPath nfc traversal)).elim (nilVal, false) (·, true) := by
  simp only [lookup, pathFromTraversal_eq]
  split
  · simp_all
  · split <;> simp_all

/-! ## One level of `insertCtyValue` -/

variable (nfc) in
/-- `insertCtyValue` can step into every proper prefix of `path` followed from `o` (`none`:
nothing there) and rebuild it as it was: each is absent, null or a known object with normal
names. -/
def PathOpen : Option Value → List String → Prop
  | _, [] => True
  | o, name :: path =>
    o.elim true (Value.isNullOrNormalObject nfc) = true ∧
      PathOpen (o.bind (getAttrStep nfc name)) path

/-- **One level.** On an absent, null or object value, `insertCtyValue` reads, at a normal name,
the attribute map `GetAttr` reads, recurses on the attribute's value, and writes the result back. -/
theorem insertCtyValue_cons {o : Option Value}
    (ho : o.elim true (Value.isNullOrNormalObject nfc) = true) (val : Value) {name : String}
    (hname : nfc name = name) (path : List String) :
    ∃ m : Attrs, m.normal nfc = true ∧ (∀ k, m.get? (nfc k) = o.bind (getAttrStep nfc k)) ∧
      insertCtyValue nfc ord (o.getD nilVal) val (name :: path) =
        (insertCtyValue nfc ord ((o.bind (getAttrStep nfc name)).getD nilVal) val path).map
          fun v => objectVal nfc ord (m.set name v) := by
  -- the value stepped into, once a null is replaced, is an object that agrees with `GetAttr`
  obtain ⟨m, hm, hget, hstep⟩ : ∃ m : Attrs, m.normal nfc = true ∧
      (∀ k, m.get? (nfc k) = o.bind (getAttrStep nfc k)) ∧
      (if (o.getD nilVal).isNull then emptyObjectVal else o.getD nilVal) = .object m := by
    rcases o with _ | (_ | _ | attrs | _)
    · exact ⟨.nil, rfl, fun _ => rfl, rfl⟩
    · exact ⟨.nil, rfl, fun _ => rfl, rfl⟩
    · simp [Value.isNullOrNormalObject] at ho
    · exact ⟨attrs, ho, fun _ => rfl, rfl⟩
    · simp [Value.isNullOrNormalObject] at ho
  have hraw : m.get? name = o.bind (getAttrStep nfc name) := by rw [← hget name, hname]
  refine ⟨m, hm, hget, ?_⟩
  simp only [insertCtyValue, hstep, Value.isObjectType, Value.asValueMap, if_true,
    Option.map_eq_bind, ← hraw]
  rfl

/-- **Get after insert.** Along an open path of normal names, `insertCtyValue` returns a value in
which the path leads to the inserted value. -/
theorem insertCtyValue_get (val : Value) : ∀ (path : List String) (o : Option Value),
    PathOpen nfc o path → (∀ n ∈ path, nfc n = n) →
      ∃ r, insertCtyValue nfc ord (o.getD nilVal) val path = some r ∧
        applyPath nfc path r = some val
  | [], _, _, _ => ⟨val, rfl, rfl⟩
  | name :: path, o, ⟨ho, hrest⟩, hn => by
    have hname := hn name (List.mem_cons_self _ _)
    obtain ⟨m, hm, -, heq⟩ := insertCtyValue_cons ord ho val hname path
    obtain ⟨r, hr, happ⟩ := insertCtyValue_get val path _ hrest
      fun n h => hn n (List.mem_cons_of_mem _ h)
    refine ⟨objectVal nfc ord (m.set name r), by rw [heq, hr]; rfl, ?_⟩
    rw [applyPath_cons, getAttrStep_objectVal ord (Attrs.normal_set hm hname r), hname,
      Attrs.get?_set, if_pos rfl, Option.some_bind, happ]

/-- **Frame.** A path of normal names that is neither a prefix of the inserted one nor has it as a
prefix leads, in the value `insertCtyValue` returns, where it led before. -/
theorem insertCtyValue_frame (val : Value) : ∀ (path : List String) (o : Option Value) (r : Value),
    PathOpen nfc o path → (∀ n ∈ path, nfc n = n) →
      insertCtyValue nfc ord (o.getD nilVal) val path = some r →
      ∀ q, (∀ n ∈ q, nfc n = n) → ¬ path <+: q → ¬ q <+: path →
        applyPath nfc q r = o.bind (applyPath nfc q)
  | [], _, _, _, _, _, _, _, hpq, _ => absurd List.nil_prefix hpq
  | _ :: _, _, _, _, _, _, [], _, _, hqp => absurd List.nil_prefix hqp
  | name :: path, o, r, ⟨ho, hrest⟩, hn, hr, b :: q, hq, hpq, hqp => by
    have hname := hn name (List.mem_cons_self _ _)
    obtain ⟨m, hm, hget, heq⟩ := insertCtyValue_cons ord ho val hname path
    rw [heq] at hr
    obtain ⟨r', hr', rfl⟩ := Option.map_eq_some'.mp hr
    have hb' := hq b (List.mem_cons_self _ _)
    rw [applyPath_cons, getAttrStep_objectVal ord (Attrs.normal_set hm hname r'), hb',
      Attrs.get?_set]
    by_cases hb : name = b
    · subst hb
      rw [if_pos rfl, Option.some_bind, insertCtyValue_frame val path _ r' hrest
        (fun n h => hn n (List.mem_cons_of_mem _ h)) hr' q
        (fun n h => hq n (List.mem_cons_of_mem _ h))
        (fun h => hpq (List.cons_prefix_cons.mpr ⟨rfl, h⟩))
        (fun h => hqp (List.cons_prefix_cons.mpr ⟨rfl, h⟩))]
      exact Option.bind_assoc _ _ _
    · rw [if_neg hb, show m.get? b = o.bind (getAttrStep nfc b) by rw [← hget b, hb']]
      exact Option.bind_assoc _ _ _

theorem isNullOrNormalObject_of_insertCtyValue {o : Option Value} {val r : Value}
    {path : List String} (hp : PathOpen nfc o path) (hn : ∀ n ∈ path, nfc n = n)
    (hne : path ≠ []) (hr : insertCtyValue nfc ord (o.getD nilVal) val path = some r) :
    r.isNullOrNormalObject nfc = true := by
  obtain _ | ⟨name, path⟩ := path
  · exact absurd rfl hne
  have hname := hn name (List.mem_cons_self _ _)
  obtain ⟨m, hm, -, heq⟩ := insertCtyValue_cons ord hp.1 val hname path
  rw [heq] at hr
  obtain ⟨_, -, rfl⟩ := Option.map_eq_some'.mp hr
  exact isNullOrNormalObject_objectVal ord (Attrs.normal_set hm hname _)

/-! ## The table -/

variable (nfc) in
/-- Every proper prefix of the traversal `root :: attrs` resolves to nothing, to null or to a known
object whose names are in normal form. -/
def PrefixesOpen (s : SymbolTable) (root : String) (attrs : List String) : Prop :=
  ∀ n < attrs.length, (s.lookup nfc (root :: attrs.take n)).2 = false ∨
    (s.lookup nfc (root :: attrs.take n)).1.isNullOrNormalObject nfc = true

instance (s : SymbolTable) (root : String) (attrs : List String) :
    Decidable (s.PrefixesOpen nfc root attrs) :=
  inferInstanceAs (Decidable (∀ n < attrs.length, (s.lookup nfc (root :: attrs.take n)).2 = false ∨
    (s.lookup nfc (root :: attrs.take n)).1.isNullOrNormalObject nfc = true))

theorem pathOpen_iff (o : Option Value) (path : List String) :
    PathOpen nfc o path ↔ ∀ n < path.length,
      (o.bind (applyPath nfc (path.take n))).elim true (Value.isNullOrNormalObject nfc) = true := by
  induction path generalizing o with
  | nil => simp [PathOpen]
  | cons name path ih =>
    rw [PathOpen, ih, List.length_cons, Nat.forall_lt_succ_left]
    simp only [List.take_zero, List.take_succ_cons, applyPath_cons, Option.bind_assoc]
    rw [show applyPath nfc [] = some from rfl, Option.bind_some]

theorem resolves_iff (s : SymbolTable) (root : String) (path : List String) :
    ((s.lookup nfc (root :: path)).2 = false ∨
      (s.lookup nfc (root :: path)).1.isNullOrNormalObject nfc = true) ↔
      ((s.Variables.lookup root).bind (applyPath nfc path)).elim true
        (Value.isNullOrNormalObject nfc) = true := by
  rw [lookup_cons]
  cases (s.Variables.lookup root).bind (applyPath nfc path) <;>
    simp [nilVal, Value.isNullOrNormalObject]

theorem pathOpen_of_prefixesOpen {s : SymbolTable} {root : String} {attrs : List String}
    (h : s.PrefixesOpen nfc root attrs) : PathOpen nfc (s.Variables.lookup root) attrs :=
  (pathOpen_iff _ _).mpr fun n hn => (resolves_iff s root _).mp (h n hn)

/-- **`insert` on an open traversal** of normal names returns, writing the root with a value in
which the attribute path leads to the inserted value and every path of normal names apart from
it leads where it led. -/
theorem insert_spec {s : SymbolTable} {root : String} {attrs : List String}
    (hn : ∀ n ∈ attrs, nfc n = n) (h : s.PrefixesOpen nfc root attrs) (val : Value) :
    ∃ r, s.insert nfc ord val (root :: attrs) = some ⟨s.Variables.insert root r⟩ ∧
      applyPath nfc attrs r = some val ∧
      (∀ q, (∀ n ∈ q, nfc n = n) → ¬ attrs <+: q → ¬ q <+: attrs →
        applyPath nfc q r = (s.Variables.lookup root).bind (applyPath nfc q)) ∧
      (attrs ≠ [] → r.isNullOrNormalObject nfc = true) := by
  have hp := pathOpen_of_prefixesOpen h
  obtain ⟨r, hr, happ⟩ := insertCtyValue_get ord val attrs _ hp hn
  exact ⟨r, by simp [insert, hr], happ, insertCtyValue_frame ord val attrs _ r hp hn hr,
    fun hne => isNullOrNormalObject_of_insertCtyValue ord hp hn hne hr⟩

/-- **Frame of insert.** For every normalization, map order, table, value and two traversals of
normal names of which neither is a prefix of the other, when every proper prefix of the first
resolves to nothing, to null or to a known object with normal names, `insert` at the first
returns, and leaves the lookup of the second. -/
theorem lookup_of_insert_elsewhere (nfc : String → String) (ord : MapOrder) (s : SymbolTable)
    (v : Value) (root : String) (attrs : List String) (root' : String) (attrs' : List String)
    (hn : ∀ n ∈ attrs, nfc n = n) (hn' : ∀ n ∈ attrs', nfc n = n)
    (h : s.PrefixesOpen nfc root attrs)
    (hpq : ¬ (root :: attrs) <+: (root' :: attrs')) (hqp : ¬ (root' :: attrs') <+: (root :: attrs)) :
    ∃ s', s.insert nfc ord v (root :: attrs) = some s' ∧
      s'.lookup nfc (root' :: attrs') = s.lookup nfc (root' :: attrs') := by
  obtain ⟨r, hs, -, hframe, -⟩ := insert_spec ord hn h v
  refine ⟨_, hs, ?_⟩
  by_cases hr : root' = root
  · subst hr
    rw [lookup_cons, lookup_cons, AList.lookup_insert, Option.some_bind,
      hframe attrs' hn' (fun h => hpq (List.cons_prefix_cons.mpr ⟨rfl, h⟩))
        (fun h => hqp (List.cons_prefix_cons.mpr ⟨rfl, h⟩))]
  · simp only [lookup_cons, AList.lookup_insert_ne hr]

/-- A table whose `module` object holds the outputs `x` of a module `a`. -/
def moduleA : SymbolTable :=
  ⟨(∅ : GoMap Value).insert "module" (.object (.cons "a" (.other "x") .nil))⟩

theorem lookup_of_insert_elsewhere_module :
    (∀ n ∈ ["é"], composeAcute n = n) ∧ (∀ n ∈ ["a"], composeAcute n = n) ∧
      moduleA.PrefixesOpen composeAcute "module" ["é"] ∧
      ∃ s', moduleA.insert composeAcute .reversed (.other "y") ["module", "é"] = some s' ∧
        s'.lookup composeAcute ["module", "a"] = moduleA.lookup composeAcute ["module", "a"] :=
  have hn : ∀ n ∈ ["é"], composeAcute n = n := by decide
  have hn' : ∀ n ∈ ["a"], composeAcute n = n := by decide
  have h : moduleA.PrefixesOpen composeAcute "module" ["é"] := by decide
  ⟨hn, hn', h, lookup_of_insert_elsewhere composeAcute .reversed moduleA (.other "y") "module" ["é"]
    "module" ["a"] hn hn' h (by decide) (by decide)⟩

/-- A table whose `module` object holds, under `é`, an object with the attribute `c`. -/
def nestedAcute : SymbolTable :=
  ⟨(∅ : GoMap Value).insert "module"
    (.object (.cons "é" (.object (.cons "c" (.other "x") .nil)) .nil))⟩

/-- **A lookup by a name not in normal form** sees an insert below the name it normalizes to,
although neither traversal is a prefix of the other. -/
theorem lookup_decomposed_sees_insert :
    ¬ ["module", "é", "b"] <+: ["module", "e\u0301"] ∧
      ¬ ["module", "e\u0301"] <+: ["module", "é", "b"] ∧
      nestedAcute.PrefixesOpen composeAcute "module" ["é", "b"] ∧
      ∃ s', nestedAcute.insert composeAcute .listed (.other "y") ["module", "é", "b"] = some s' ∧
        s'.lookup composeAcute ["module", "e\u0301"] ≠
          nestedAcute.lookup composeAcute ["module", "e\u0301"] :=
  ⟨by decide, by decide, by decide, _, rfl, by decide⟩

/-! ## Runs of module outputs -/

variable (nfc) in
/-- The `module` root resolves to nothing, to null or to a known object with normal names. -/
def ModuleOpen (s : SymbolTable) : Prop :=
  (s.lookup nfc ["module"]).2 = false ∨ (s.lookup nfc ["module"]).1.isNullOrNormalObject nfc = true

instance (s : SymbolTable) : Decidable (s.ModuleOpen nfc) :=
  inferInstanceAs (Decidable ((s.lookup nfc ["module"]).2 = false ∨
    (s.lookup nfc ["module"]).1.isNullOrNormalObject nfc = true))

theorem prefixesOpen_module {s : SymbolTable} (h : s.ModuleOpen nfc) (moduleName : String) :
    s.PrefixesOpen nfc "module" [moduleName] := fun n hn => by
  obtain rfl : n = 0 := by simpa using hn
  exact h

/-- A call the parser makes to pass values between modules. -/
inductive Call
  | setInputs (inputs : Value)
  | setOutputs (moduleName : String) (outputs : Value)

def Call.outputsFor (moduleName : String) : Call → Option Value
  | .setInputs _ => none
  | .setOutputs m outputs => if m = moduleName then some outputs else none

variable (nfc) in
/-- One call, with the order `ord` of its `ObjectVal` loop; none where `SetOutputs` stops the
process. -/
def call (s : SymbolTable) : Call → Option SymbolTable
  | .setInputs inputs => some (s.setInputs inputs)
  | .setOutputs moduleName outputs => s.setOutputs nfc ord moduleName outputs

variable (nfc) in
/-- The calls in order, the `i`-th with the order `ords i` of its `ObjectVal` loop, stopping at the
first that stops. -/
def run (ords : ℕ → MapOrder) : SymbolTable → List Call → Option SymbolTable
  | s, [] => some s
  | s, c :: calls => (s.call nfc (ords 0) c).bind fun s' => run (fun i => ords (i + 1)) s' calls

/-- The outputs of the last call that sets the module's. -/
def lastOutputs (moduleName : String) : List Call → Option Value
  | [] => none
  | c :: calls => (lastOutputs moduleName calls).or (c.outputsFor moduleName)

theorem lookup_setInputs (s : SymbolTable) (inputs : Value) (attrs : List String) :
    (s.setInputs inputs).lookup nfc ("module" :: attrs) = s.lookup nfc ("module" :: attrs) := by
  simp only [setInputs, lookup_cons]
  rw [AList.lookup_insert_ne (by decide)]

/-- **One call** of a normal module name from a table whose `module` is open returns, keeps it
open, and sets the found outputs of the module it names, leaving every other normal name's. -/
theorem call_spec {s : SymbolTable} (h : s.ModuleOpen nfc) (c : Call)
    (hc : ∀ m outputs, c = .setOutputs m outputs → nfc m = m) :
    ∃ s', s.call nfc ord c = some s' ∧ s'.ModuleOpen nfc ∧ ∀ m, nfc m = m →
      s'.lookup nfc ["module", m] =
        ((c.outputsFor m).map (·, true)).getD (s.lookup nfc ["module", m]) := by
  cases c with
  | setInputs inputs =>
    refine ⟨_, rfl, ?_, fun m _ => lookup_setInputs s inputs [m]⟩
    rw [ModuleOpen, lookup_setInputs]
    exact h
  | setOutputs moduleName outputs =>
    have hname := hc moduleName outputs rfl
    obtain ⟨r, hs, happ, hframe, hobj⟩ := insert_spec ord (by simpa using hname)
      (prefixesOpen_module h moduleName) outputs
    refine ⟨_, hs, by simp [ModuleOpen, lookup_cons, hobj], fun m hm => ?_⟩
    rw [lookup_cons, AList.lookup_insert, Option.some_bind]
    by_cases hmod : moduleName = m
    · subst hmod
      simp [Call.outputsFor, happ]
    · rw [hframe [m] (by simpa using hm) (by simpa using hmod) (by simpa using Ne.symm hmod)]
      simp [Call.outputsFor, hmod, lookup_cons]

/-- **Runs of module outputs.** For every normalization and choice of map orders, over any run of
`SetInputs` and `SetOutputs` calls of normal module names from a table whose `module` resolves to
nothing, to null or to a known object with normal names, every call returns, and each normal
module name's outputs are found as set by the last `SetOutputs` for it, or, if there is none, as
they were found before the run. -/
theorem lookup_module_run (nfc : String → String) (ords : ℕ → MapOrder) (s : SymbolTable)
    (calls : List Call) (h : s.ModuleOpen nfc)
    (hn : ∀ m outputs, .setOutputs m outputs ∈ calls → nfc m = m) :
    ∃ s', s.run nfc ords calls = some s' ∧ ∀ m, nfc m = m →
      s'.lookup nfc ["module", m] =
        ((lastOutputs m calls).map (·, true)).getD (s.lookup nfc ["module", m]) := by
  induction calls generalizing s ords with
  | nil => exact ⟨s, rfl, fun _ _ => rfl⟩
  | cons c calls ih =>
    obtain ⟨s₁, hs₁, h₁, hl₁⟩ := call_spec (ords 0) h c
      fun m o hc => hn m o (hc ▸ List.mem_cons_self _ _)
    obtain ⟨s', hs', hl'⟩ := ih (fun i => ords (i + 1)) s₁ h₁
      fun m o hm => hn m o (List.mem_cons_of_mem _ hm)
    refine ⟨s', by rw [run, hs₁, Option.some_bind, hs'], fun m hm => ?_⟩
    rw [hl' m hm, hl₁ m hm, lastOutputs]
    cases lastOutputs m calls <;> rfl

/-- Two modules' outputs set in turn, with inputs set between them. -/
def twoModules : List Call :=
  [.setOutputs "a" (.other "x"), .setInputs (.other "i"), .setOutputs "é" (.other "y")]

/-- The orders of a run that alternates the listed and the reversed order. -/
def alternating (i : ℕ) : MapOrder :=
  if i % 2 = 0 then .listed else .reversed

theorem lookup_module_run_twoModules :
    moduleA.ModuleOpen composeAcute ∧
      (∀ m outputs, .setOutputs m outputs ∈ twoModules → composeAcute m = m) ∧
      ∃ s', moduleA.run composeAcute alternating twoModules = some s' ∧ ∀ m, composeAcute m = m →
        s'.lookup composeAcute ["module", m] =
          ((lastOutputs m twoModules).map (·, true)).getD (moduleA.lookup composeAcute ["module", m]) :=
  have h : moduleA.ModuleOpen composeAcute := by decide
  have hn : ∀ m outputs, .setOutputs m outputs ∈ twoModules → composeAcute m = m := by
    intro m outputs hm
    simp only [twoModules, List.mem_cons, Call.setOutputs.injEq, reduceCtorEq, false_or,
      List.not_mem_nil, or_false] at hm
    rcases hm with ⟨rfl, -⟩ | ⟨rfl, -⟩ <;> decide
  ⟨h, hn, lookup_module_run composeAcute alternating moduleA twoModules h hn⟩

/-! ## When `insert` stops -/

/-- A value `insertCtyValue` steps into: null, a known object, or an unknown value of an object
type without attributes, whose `AsValueMap` is the nil map. -/
def insertable : Value → Bool
  | .null => true
  | .object _ => true
  | .unknown (.object .nil) => true
  | _ => false

variable (nfc) in
def PathAll (P : Value → Bool) : Option Value → List String → Prop
  | _, [] => True
  | o, name :: path => o.elim true P = true ∧ PathAll P (o.bind (getAttrStep nfc name)) path

theorem pathAll_iff (P : Value → Bool) (o : Option Value) (path : List String) :
    PathAll nfc P o path ↔
      ∀ n < path.length, (o.bind (applyPath nfc (path.take n))).elim true P = true := by
  induction path generalizing o with
  | nil => simp [PathAll]
  | cons name path ih =>
    rw [PathAll, ih, List.length_cons, Nat.forall_lt_succ_left]
    simp only [List.take_zero, List.take_succ_cons, applyPath_cons, Option.bind_assoc]
    rw [show applyPath nfc [] = some from rfl, Option.bind_some]

theorem isSome_bind_some {α β : Type} (x : Option α) (f : α → β) :
    (x.bind fun v => some (f v)).isSome = x.isSome := by
  cases x <;> rfl

/-- **One level, exactly.** Along a path of normal names, `insertCtyValue` returns exactly when
each value it steps into on the way is insertable. -/
theorem insertCtyValue_isSome (val : Value) : ∀ (path : List String) (o : Option Value),
    (∀ n ∈ path, nfc n = n) →
      ((insertCtyValue nfc ord (o.getD nilVal) val path).isSome ↔ PathAll nfc insertable o path)
  | [], _, _ => by simp [insertCtyValue, PathAll]
  | name :: path, none, hn => by
    simpa [insertCtyValue, PathAll, nilVal, Value.isNull, emptyObjectVal, Value.isObjectType,
      Value.asValueMap, isSome_bind_some] using
      insertCtyValue_isSome val path none fun n h => hn n (List.mem_cons_of_mem _ h)
  | name :: path, some .null, hn => by
    simpa [insertCtyValue, PathAll, insertable, Value.isNull, emptyObjectVal, Value.isObjectType,
      Value.asValueMap, isSome_bind_some] using
      insertCtyValue_isSome val path none fun n h => hn n (List.mem_cons_of_mem _ h)
  | name :: path, some (.unknown (.object .nil)), hn => by
    simpa [insertCtyValue, PathAll, insertable, Value.isNull, Value.isObjectType, Value.asValueMap,
      getAttrStep, AttrTypes.get?, isSome_bind_some] using
      insertCtyValue_isSome val path none fun n h => hn n (List.mem_cons_of_mem _ h)
  | name :: path, some (.unknown (.object (.cons _ _ _))), _ => by
    simp [insertCtyValue, PathAll, insertable, Value.isNull, Value.isObjectType, Value.asValueMap]
  | name :: path, some (.unknown .other), _ => by
    simp [insertCtyValue, PathAll, insertable, Value.isNull, Value.isObjectType]
  | name :: path, some (.object attrs), hn => by
    simpa [insertCtyValue, PathAll, insertable, Value.isNull, Value.isObjectType,
      Value.asValueMap, isSome_bind_some, hn name (List.mem_cons_self _ _)] using
      insertCtyValue_isSome val path (attrs.get? name) fun n h => hn n (List.mem_cons_of_mem _ h)
  | name :: path, some (.other _), _ => by
    simp [insertCtyValue, PathAll, insertable, Value.isNull, Value.isObjectType]

variable (nfc) in
/-- Every proper prefix of the traversal `root :: attrs` resolves to nothing or to an insertable
value. -/
def PrefixesInsertable (s : SymbolTable) (root : String) (attrs : List String) : Prop :=
  ∀ n < attrs.length, (s.lookup nfc (root :: attrs.take n)).2 = false ∨
    insertable (s.lookup nfc (root :: attrs.take n)).1 = true

instance (s : SymbolTable) (root : String) (attrs : List String) :
    Decidable (s.PrefixesInsertable nfc root attrs) :=
  inferInstanceAs (Decidable (∀ n < attrs.length, (s.lookup nfc (root :: attrs.take n)).2 = false ∨
    insertable (s.lookup nfc (root :: attrs.take n)).1 = true))

/-- **When `insert` stops.** For every normalization, map order, table, value and traversal
`root :: attrs` of normal names, `insert` returns exactly when every proper prefix of the traversal
resolves to nothing, to null, to a known object, or to an unknown value of an object type without
attributes. At any other value on the way the process stops: `log.Fatal` at a value whose type is
not an object type, the panic of `AsValueMap` at an unknown object with attributes. -/
theorem insert_isSome_iff (nfc : String → String) (ord : MapOrder) (s : SymbolTable) (v : Value)
    (root : String) (attrs : List String) (hn : ∀ n ∈ attrs, nfc n = n) :
    (s.insert nfc ord v (root :: attrs)).isSome ↔ s.PrefixesInsertable nfc root attrs := by
  rw [insert, Option.isSome_map', insertCtyValue_isSome ord v attrs _ hn, pathAll_iff]
  refine forall₂_congr fun n _ => ?_
  rw [lookup_cons]
  cases (s.Variables.lookup root).bind (applyPath nfc (attrs.take n)) <;> simp [nilVal, insertable]

/-- An unknown object with an attribute stops `SetOutputs`: its value map cannot be read. -/
def unknownModule : SymbolTable :=
  ⟨(∅ : GoMap Value).insert "module" (.unknown (.object (.cons "a" .other .nil)))⟩

theorem insert_isSome_iff_unknownModule :
    (∀ n ∈ ["é"], composeAcute n = n) ∧
      ¬ unknownModule.PrefixesInsertable composeAcute "module" ["é"] ∧
      (unknownModule.insert composeAcute .reversed (.other "y") ["module", "é"]).isSome = false :=
  have hn : ∀ n ∈ ["é"], composeAcute n = n := by decide
  have h : ¬ unknownModule.PrefixesInsertable composeAcute "module" ["é"] := by decide
  ⟨hn, h, by simpa using mt (insert_isSome_iff composeAcute .reversed unknownModule (.other "y")
    "module" ["é"] hn).mp h⟩

end Laws

end SymbolTable

end Bubbly
