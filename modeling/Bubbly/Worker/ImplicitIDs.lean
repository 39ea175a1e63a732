import Bubbly.Schema

/-!
# Implicit identifiers

Before the store creates a schema, `addImplicitIDs` gives every table, at every depth, the
implicit columns the spec asks for: the surrogate key `_id`, appended to the table's fields, and
for a table nested in a table `p` the foreign key `p_id` (the name of `p` followed by `_id`),
appended unless the table already has a field of that name.

**Theorem (`addImplicitIDs_fields`).** For a forest of tables whose field names are pairwise
distinct and none of which declares `_id`, the result has the same tables, nesting, order, joins
and flags (`shapes`); every table, paired with the table it is nested in (`tablesWithParents`),
keeps its fields in order, followed by implicit Number fields only; and each table has distinct
field names, exactly one `_id`, and, when nested in `p`, exactly one `p_id`.

The check is made for `p_id` only: `_id` is appended whatever the table holds, so a table that
declares `_id` ends up with two, and so does every table when `addImplicitIDs` is applied to its
own result (`addImplicitIDs_twice`).

**Proof.** One table's fields are handled by `implicitFields`; `forall₂_addImplicitIDs` shows, by
induction over the forest, that every table of the result is an input table with its fields
extended by `implicitFields` for its own parent.
-/

namespace Bubbly

/-- Modelled from the spec: `idFieldName`, declared outside the sources; the spec names the
implicit surrogate key `_id`. -/
def idFieldName : String := "_id"

/-- The fields `addImplicitIDs` gives a table nested in the table named `parent`: its own, then
`_id`, then `<parent>_id` unless a field of that name is already there. The source passes the
parent table, of which it reads only the name. -/
def implicitFields (parent : Option String) (fields : List TableField) : List TableField :=
  let fields := fields ++ [⟨idFieldName, .number⟩]
  match parent with
  | none => fields
  | some parent =>
    let parentIDName := parent ++ "_id"
    if fields.any (·.name == parentIDName) then fields else fields ++ [⟨parentIDName, .number⟩]

mutual
def Table.addImplicitIDs (parent : Option Table) : Table → Table
  | ⟨name, fields, tables, joins, single⟩ =>
    let t : Table := ⟨name, implicitFields (parent.map (·.name)) fields, tables, joins, single⟩
    { t with tables := addImplicitIDs (some t) tables }

/-- `addImplicitIDs`: every table of the list with its implicit fields, and so, recursively, the
tables nested in it. -/
def addImplicitIDs (parent : Option Table) : List Table → List Table
  | [] => []
  | t :: ts => t.addImplicitIDs parent :: addImplicitIDs parent ts
end

section Table

variable (parent : Option Table) (t : Table)

@[simp] theorem name_addImplicitIDs : (t.addImplicitIDs parent).name = t.name := by
  cases t; rfl

@[simp] theorem fields_addImplicitIDs :
    (t.addImplicitIDs parent).fields = implicitFields (parent.map (·.name)) t.fields := by
  cases t; rfl

@[simp] theorem tables_addImplicitIDs :
    (t.addImplicitIDs parent).tables =
      addImplicitIDs (some { t with fields := implicitFields (parent.map (·.name)) t.fields })
        t.tables := by
  cases t; rfl

@[simp] theorem joins_addImplicitIDs : (t.addImplicitIDs parent).joins = t.joins := by
  cases t; rfl

@[simp] theorem single_addImplicitIDs : (t.addImplicitIDs parent).single = t.single := by
  cases t; rfl

end Table

@[simp] theorem addImplicitIDs_nil (parent : Option Table) : addImplicitIDs parent [] = [] := by
  simp [addImplicitIDs]

@[simp] theorem addImplicitIDs_cons (parent : Option Table) (t : Table) (ts : List Table) :
    addImplicitIDs parent (t :: ts) = t.addImplicitIDs parent :: addImplicitIDs parent ts := by
  simp [addImplicitIDs]

/-! ## One table's fields -/

/-- The fields of a table nested in `parent` are `fields` followed by implicit Number fields,
each named `_id` or `<parent>_id`. -/
def ExtendsWithIDs (parent : Option String) (fields fields' : List TableField) : Prop :=
  ∃ ids, fields' = fields ++ ids ∧
    ∀ f ∈ ids, f.type = .number ∧ (f.name = idFieldName ∨ parent.map (· ++ "_id") = some f.name)

theorem implicitFields_extends (parent : Option String) (fields : List TableField) :
    ExtendsWithIDs parent fields (implicitFields parent fields) := by
  cases parent with
  | none => exact ⟨_, rfl, by simp⟩
  | some p =>
    simp only [implicitFields]
    split_ifs
    · exact ⟨_, rfl, by simp⟩
    · exact ⟨_, by rw [List.append_assoc], by simp⟩

theorem any_name_iff (fields : List TableField) (x : String) :
    fields.any (·.name == x) = true ↔ x ∈ fields.map (·.name) := by
  simp [List.any_eq_true, List.mem_map]

/-- With distinct field names and no declared `_id`, the fields stay distinct and hold one `_id`,
and one `<parent>_id` for a nested table. -/
theorem nodup_implicitFields (parent : Option String) {fields : List TableField}
    (hnd : (fields.map (·.name)).Nodup) (hid : idFieldName ∉ fields.map (·.name)) :
    ((implicitFields parent fields).map (·.name)).Nodup ∧
      ((implicitFields parent fields).map (·.name)).count idFieldName = 1 ∧
      ∀ p ∈ parent, ((implicitFields parent fields).map (·.name)).count (p ++ "_id") = 1 := by
  have hnd₁ : ((fields ++ [(⟨idFieldName, .number⟩ : TableField)]).map (·.name)).Nodup := by
    rw [List.map_append, List.nodup_append]
    exact ⟨hnd, List.nodup_singleton _, by simpa using hid⟩
  have hmem₁ : idFieldName ∈ (implicitFields parent fields).map (·.name) := by
    cases parent <;> simp only [implicitFields] <;> try split_ifs
    all_goals simp
  suffices h : ((implicitFields parent fields).map (·.name)).Nodup ∧
      ∀ p ∈ parent, p ++ "_id" ∈ (implicitFields parent fields).map (·.name) from
    ⟨h.1, List.count_eq_one_of_mem h.1 hmem₁,
      fun p hp => List.count_eq_one_of_mem h.1 (h.2 p hp)⟩
  cases parent with
  | none => exact ⟨hnd₁, by simp⟩
  | some p =>
    simp only [implicitFields, Option.mem_def, Option.some.injEq, forall_eq', any_name_iff]
    split_ifs with hmem
    · exact ⟨hnd₁, hmem⟩
    · rw [List.map_append, List.nodup_append]
      exact ⟨⟨hnd₁, by simp, by simpa using hmem⟩, by simp⟩

/-! ## Every table of the forest -/

mutual
/-- The table and every table nested in it, each with the name of the table it is nested in
directly. -/
def Table.withParents (parent : Option String) : Table → List (Option String × Table)
  | t@⟨name, _, tables, _, _⟩ => (parent, t) :: tablesWithParents (some name) tables

def tablesWithParents (parent : Option String) : List Table → List (Option String × Table)
  | [] => []
  | t :: ts => t.withParents parent ++ tablesWithParents parent ts
end

@[simp] theorem tablesWithParents_nil (parent : Option String) :
    tablesWithParents parent [] = [] := by
  simp [tablesWithParents]

@[simp] theorem tablesWithParents_cons (parent : Option String) (t : Table) (ts : List Table) :
    tablesWithParents parent (t :: ts) =
      (parent, t) :: tablesWithParents (some t.name) t.tables ++ tablesWithParents parent ts := by
  cases t; simp [tablesWithParents, Table.withParents]

theorem map_snd_tablesWithParents (ts : List Table) :
    ∀ parent, (tablesWithParents parent ts).map Prod.snd = declaredTables ts := by
  induction ts using tables_induction with
  | nil => simp
  | cons t ts iht ihs => simp [iht, ihs]

mutual
/-- The table with its fields removed, at every depth: its name, nesting, joins and flags. -/
def Table.shape : Table → Table
  | ⟨name, _, tables, joins, single⟩ => ⟨name, [], shapes tables, joins, single⟩

def shapes : List Table → List Table
  | [] => []
  | t :: ts => t.shape :: shapes ts
end

@[simp] theorem shapes_cons (t : Table) (ts : List Table) :
    shapes (t :: ts) = ⟨t.name, [], shapes t.tables, t.joins, t.single⟩ :: shapes ts := by
  cases t; simp [shapes, Table.shape]

/-- `addImplicitIDs` keeps the tables, their nesting and their order. -/
theorem shapes_addImplicitIDs (ts : List Table) :
    ∀ parent, shapes (addImplicitIDs parent ts) = shapes ts := by
  induction ts using tables_induction with
  | nil => simp [shapes]
  | cons t ts iht ihs => simp [iht, ihs]

/-- **Every table of the result.** Paired with their parents, the tables of the result are those
of the input, with the fields `implicitFields` gives for the parent. -/
theorem forall₂_addImplicitIDs (ts : List Table) :
    ∀ parent : Option Table,
      List.Forall₂ (fun a b => b.1 = a.1 ∧ b.2.fields = implicitFields a.1 a.2.fields)
        (tablesWithParents (parent.map (·.name)) ts)
        (tablesWithParents (parent.map (·.name)) (addImplicitIDs parent ts)) := by
  induction ts using tables_induction with
  | nil => simp
  | cons t ts iht ihs =>
    intro parent
    simp only [addImplicitIDs_cons, tablesWithParents_cons, name_addImplicitIDs,
      tables_addImplicitIDs, List.cons_append]
    exact .cons ⟨rfl, fields_addImplicitIDs parent t⟩ (List.rel_append
      (iht (some { t with fields := implicitFields (parent.map (·.name)) t.fields })) (ihs parent))

theorem forall_mem_of_forall₂ {α β : Type} {R : α → β → Prop} {Q : β → Prop} {l₁ : List α}
    {l₂ : List β} (h : List.Forall₂ R l₁ l₂) (hq : ∀ a ∈ l₁, ∀ b, R a b → Q b) : ∀ b ∈ l₂, Q b := by
  induction h with
  | nil => simp
  | cons hab _ ih =>
    simp only [List.mem_cons, forall_eq_or_imp]
    exact ⟨hq _ (List.mem_cons_self _ _) _ hab, ih fun a ha => hq a (List.mem_cons_of_mem _ ha)⟩

/-- **Implicit identifiers.** For a forest of tables whose field names are pairwise distinct and
none of which declares `_id`, `addImplicitIDs` keeps the tables, their nesting and order; every
table, paired with the table it is nested in, keeps its fields in order followed by implicit
Number fields named `_id` or after its parent; and each table of the result has distinct field
names, exactly one `_id` and, when nested in `p`, exactly one `p_id`. -/
theorem addImplicitIDs_fields (tables : List Table)
    (hf : ∀ t ∈ declaredTables tables,
      (t.fields.map (·.name)).Nodup ∧ idFieldName ∉ t.fields.map (·.name)) :
    shapes (addImplicitIDs none tables) = shapes tables ∧
    List.Forall₂ (fun a b => b.1 = a.1 ∧ ExtendsWithIDs a.1 a.2.fields b.2.fields)
      (tablesWithParents none tables) (tablesWithParents none (addImplicitIDs none tables)) ∧
    ∀ b ∈ tablesWithParents none (addImplicitIDs none tables),
      (b.2.fields.map (·.name)).Nodup ∧ (b.2.fields.map (·.name)).count idFieldName = 1 ∧
      ∀ p ∈ b.1, (b.2.fields.map (·.name)).count (p ++ "_id") = 1 := by
  have h₂ := forall₂_addImplicitIDs tables none
  refine ⟨shapes_addImplicitIDs tables none,
    h₂.imp fun a b ⟨h₁, h₂⟩ => ⟨h₁, h₂ ▸ implicitFields_extends a.1 a.2.fields⟩,
    forall_mem_of_forall₂ h₂ fun a ha b ⟨h₁, hfields⟩ => ?_⟩
  have ht : a.2 ∈ declaredTables tables :=
    map_snd_tablesWithParents tables none ▸ List.mem_map_of_mem Prod.snd ha
  rw [hfields, h₁]
  exact nodup_implicitFields a.1 (hf a.2 ht).1 (hf a.2 ht).2

theorem addImplicitIDs_fields_zoo :
    (∀ t ∈ declaredTables zooSchema,
      (t.fields.map (·.name)).Nodup ∧ idFieldName ∉ t.fields.map (·.name)) ∧
      shapes (addImplicitIDs none zooSchema) = shapes zooSchema :=
  have hf : ∀ t ∈ declaredTables zooSchema,
      (t.fields.map (·.name)).Nodup ∧ idFieldName ∉ t.fields.map (·.name) := by decide
  ⟨hf, (addImplicitIDs_fields zooSchema hf).1⟩

def fieldlessTable : Table :=
  ⟨"t", [], [], [], false⟩

/-- `addImplicitIDs` gives it `_id`; applied again, to a table whose field names are distinct
but which has `_id`, it gives it a second `_id`. -/
theorem addImplicitIDs_twice :
    (addImplicitIDs none [fieldlessTable]).map (·.fields) = [[⟨idFieldName, .number⟩]] ∧
      (addImplicitIDs none (addImplicitIDs none [fieldlessTable])).map (·.fields) =
        [[⟨idFieldName, .number⟩, ⟨idFieldName, .number⟩]] := by
  decide

end Bubbly
