import Mathlib.Logic.Relation
import Mathlib.Data.List.Nodup

/-!
# The Bubbly schema

The schema a user declares, as the schema graph and the GraphQL builder read it: tables with
typed fields, tables nested in them, and explicit joins. `core.Table` lives in a package that is
not among the sources, so its shape is taken from the spec.

**Links.** A table *belongs to* the table it is nested in directly, and to the target of each of
its joins. Each such link is what `NewSchemaGraph` turns into a pair of edges. `Table.links`
lists them in the order `connectFrom` meets them: the table's joins, then its link to the
enclosing table, then the links of the tables nested in it.

The conditions the graph and GraphQL results put on a schema are stated here once:
`NamesDistinct`, `JoinsDeclared`, `LinksSimple` and `Acyclic`.
-/

namespace Bubbly

/-- Modelled from the spec: the kind of a field's `cty.Type` (`core.TableField` is declared
outside the sources). -/
inductive FieldType
  | bool | number | string | object | map | list
  deriving DecidableEq, Repr

/-- Modelled from the spec: `core.TableField`. -/
structure TableField where
  name : String
  type : FieldType
  deriving DecidableEq, Repr

/-- Modelled from the spec: `core.TableJoin`, an explicit belongs-to reference. -/
structure TableJoin where
  table : String
  single : Bool
  deriving DecidableEq, Repr

/-- Modelled from the spec: `core.Table`. -/
structure Table where
  name : String
  fields : List TableField
  tables : List Table
  joins : List TableJoin
  single : Bool
  deriving Inhabited, Repr

/-! ## Declared tables -/

mutual
private theorem Table.induction_tables {motive : List Table → Prop} (nil : motive [])
    (cons : ∀ t ts, motive t.tables → motive ts → motive (t :: ts)) :
    ∀ t : Table, motive t.tables
  | ⟨_, _, ts, _, _⟩ => tables_induction nil cons ts

/-- Induction over a list of tables that also descends into the tables nested in each. -/
@[elab_as_elim]
theorem tables_induction {motive : List Table → Prop} (nil : motive [])
    (cons : ∀ t ts, motive t.tables → motive ts → motive (t :: ts)) :
    ∀ ts : List Table, motive ts
  | [] => nil
  | t :: ts => cons t ts (Table.induction_tables nil cons t) (tables_induction nil cons ts)
end

mutual
/-- The table and every table nested in it, in declaration (pre-)order. -/
def Table.declared : Table → List Table
  | t@⟨_, _, ts, _, _⟩ => t :: declaredTables ts

/-- Every table of the list, at every depth, in declaration order. -/
def declaredTables : List Table → List Table
  | [] => []
  | t :: ts => t.declared ++ declaredTables ts
end

/-- The names a list of tables declares, at every depth. -/
def declaredNames (tables : List Table) : List String :=
  (declaredTables tables).map (·.name)

@[simp] theorem declaredTables_nil : declaredTables [] = [] := by
  simp [declaredTables]

@[simp] theorem declaredTables_cons (t : Table) (ts : List Table) :
    declaredTables (t :: ts) = t :: declaredTables t.tables ++ declaredTables ts := by
  cases t; simp [declaredTables, Table.declared]

theorem mem_declaredTables_cons_of_head {t u : Table} {ts : List Table}
    (h : u ∈ t :: declaredTables t.tables) : u ∈ declaredTables (t :: ts) := by
  rw [declaredTables_cons]; exact List.mem_append_left _ h

theorem mem_declaredTables_cons_of_tail {t u : Table} {ts : List Table}
    (h : u ∈ declaredTables ts) : u ∈ declaredTables (t :: ts) := by
  rw [declaredTables_cons]; exact List.mem_append_right _ h

/-- A table of the list is declared. -/
theorem mem_declaredTables_of_mem {t : Table} {ts : List Table} (h : t ∈ ts) :
    t ∈ declaredTables ts := by
  induction ts with
  | nil => cases h
  | cons u us ih =>
    rcases List.mem_cons.mp h with rfl | h
    · exact mem_declaredTables_cons_of_head (List.mem_cons_self _ _)
    · exact mem_declaredTables_cons_of_tail (ih h)

theorem declaredTables_eq_flatMap (ts : List Table) :
    declaredTables ts = ts.flatMap fun t => t :: declaredTables t.tables := by
  induction ts with
  | nil => simp
  | cons t ts ih => simp [ih]

@[simp] theorem declaredNames_nil : declaredNames [] = [] := rfl

@[simp] theorem declaredNames_cons (t : Table) (ts : List Table) :
    declaredNames (t :: ts) = t.name :: declaredNames t.tables ++ declaredNames ts := by
  simp [declaredNames]

theorem mem_declaredNames {tables : List Table} {x : String} :
    x ∈ declaredNames tables ↔ ∃ t ∈ declaredTables tables, t.name = x := by
  simp [declaredNames]

/-- A table nested at any depth is declared. -/
theorem declaredTables_subset_of_mem {t : Table} {ts : List Table} (h : t ∈ ts) :
    declaredTables t.tables ⊆ declaredTables ts := by
  induction ts with
  | nil => cases h
  | cons u us ih =>
    rcases List.mem_cons.mp h with rfl | h
    · intro x hx; simp [hx]
    · intro x hx; simp [ih h hx]

/-! ## Links -/

/-- A belongs-to link: `child` belongs to `parent`. `single` makes the parent's side of it
one-to-one. -/
structure Link where
  parent : String
  child : String
  single : Bool
  deriving DecidableEq, Repr

mutual
/-- The links of a table and of the tables nested in it, given the table it is nested in. -/
def Table.links (parent : Option String) : Table → List Link
  | ⟨name, _, ts, joins, single⟩ =>
    joins.map (fun j => ⟨j.table, name, j.single⟩) ++
      (parent.map fun p => ⟨p, name, single⟩).toList ++ tablesLinks (some name) ts

/-- The links of a list of tables nested in `parent` (none at the top level). -/
def tablesLinks (parent : Option String) : List Table → List Link
  | [] => []
  | t :: ts => t.links parent ++ tablesLinks parent ts
end

/-- The schema's belongs-to links, in the order `connectFrom` meets them. -/
def declaredLinks (tables : List Table) : List Link :=
  tablesLinks none tables

/-- The link of a table to the table it is nested in. -/
def nestLink (parent : Option String) (t : Table) : List Link :=
  (parent.map fun p => ⟨p, t.name, t.single⟩).toList

/-- The links of a table's own joins. -/
def joinLinks (t : Table) : List Link :=
  t.joins.map fun j => ⟨j.table, t.name, j.single⟩

@[simp] theorem tablesLinks_nil (parent : Option String) : tablesLinks parent [] = [] := by
  simp [tablesLinks]

@[simp] theorem tablesLinks_cons (parent : Option String) (t : Table) (ts : List Table) :
    tablesLinks parent (t :: ts) =
      joinLinks t ++ nestLink parent t ++ tablesLinks (some t.name) t.tables ++
        tablesLinks parent ts := by
  cases t; simp [tablesLinks, Table.links, joinLinks, nestLink]

/-- Every link's child is a declared table. -/
theorem child_mem_declaredNames {parent : Option String} {ts : List Table} {l : Link}
    (h : l ∈ tablesLinks parent ts) : l.child ∈ declaredNames ts := by
  induction ts using tables_induction generalizing parent with
  | nil => simp at h
  | cons t ts ih₁ ih₂ =>
    simp only [tablesLinks_cons, List.mem_append, joinLinks, nestLink, List.mem_map,
      Option.mem_toList, Option.mem_def, Option.map_eq_some'] at h
    rcases h with ((⟨j, -, rfl⟩ | ⟨p, -, rfl⟩) | h) | h
    · simp
    · simp
    · simp [ih₁ h]
    · simp [ih₂ h]

/-- A link's parent is the table it is nested in, a declared table, or the target of a join. -/
theorem parent_of_mem_tablesLinks {parent : Option String} {ts : List Table} {l : Link}
    (h : l ∈ tablesLinks parent ts) :
    l.parent ∈ parent ∨ l.parent ∈ declaredNames ts ∨
      ∃ t ∈ declaredTables ts, ∃ j ∈ t.joins, j.table = l.parent := by
  induction ts using tables_induction generalizing parent with
  | nil => simp at h
  | cons t ts ih₁ ih₂ =>
    simp only [tablesLinks_cons, List.mem_append, joinLinks, nestLink, List.mem_map,
      Option.mem_toList, Option.mem_def, Option.map_eq_some'] at h
    rcases h with ((⟨j, hj, rfl⟩ | ⟨p, hp, rfl⟩) | h) | h
    · exact .inr (.inr ⟨t, by simp, j, hj, rfl⟩)
    · exact .inl hp
    · rcases ih₁ h with h | h | ⟨u, hu, j, hj, he⟩
      · simp at h; simp [h]
      · simp [h]
      · exact .inr (.inr ⟨u, by simp [hu], j, hj, he⟩)
    · rcases ih₂ h with h | h | ⟨u, hu, j, hj, he⟩
      · exact .inl h
      · simp [h]
      · exact .inr (.inr ⟨u, by simp [hu], j, hj, he⟩)

theorem declaredLinks_eq_flatMap (ts : List Table) :
    declaredLinks ts = ts.flatMap fun t => joinLinks t ++ tablesLinks (some t.name) t.tables := by
  unfold declaredLinks
  induction ts with
  | nil => simp
  | cons t ts ih => simp [ih, nestLink]

/-! ## Well-formed schemas -/

/-- No two tables, at any depths, share a name. -/
def NamesDistinct (tables : List Table) : Prop :=
  (declaredNames tables).Nodup

/-- Every explicit join, at every depth, names a declared table. -/
def JoinsDeclared (tables : List Table) : Prop :=
  ∀ t ∈ declaredTables tables, ∀ j ∈ t.joins, j.table ∈ declaredNames tables

instance (tables : List Table) : Decidable (NamesDistinct tables) :=
  inferInstanceAs (Decidable (List.Nodup _))

instance (tables : List Table) : Decidable (JoinsDeclared tables) :=
  inferInstanceAs (Decidable (∀ t ∈ declaredTables tables, ∀ j ∈ t.joins, _))

/-- Every table nested in another is the child of a link. -/
theorem exists_link_of_nested {p : String} {ts : List Table} {x : String}
    (hx : x ∈ declaredNames ts) : ∃ l ∈ tablesLinks (some p) ts, l.child = x := by
  induction ts using tables_induction generalizing p with
  | nil => simp at hx
  | cons t ts ih₁ ih₂ =>
    simp only [declaredNames_cons, List.mem_cons, List.mem_append] at hx
    simp only [tablesLinks_cons, List.mem_append]
    rcases hx with (rfl | hx) | hx
    · exact ⟨⟨p, t.name, t.single⟩, .inl (.inl (.inr (by simp [nestLink]))), rfl⟩
    · obtain ⟨l, hl, rfl⟩ := ih₁ hx; exact ⟨l, .inl (.inr hl), rfl⟩
    · obtain ⟨l, hl, rfl⟩ := ih₂ hx; exact ⟨l, .inr hl, rfl⟩

/-- The links of the tables nested in a top-level table are links of the schema. -/
theorem tablesLinks_subset_of_mem {t : Table} {ts : List Table} (ht : t ∈ ts) :
    tablesLinks (some t.name) t.tables ⊆ tablesLinks none ts := by
  induction ts with
  | nil => cases ht
  | cons u us ih =>
    rcases List.mem_cons.mp ht with rfl | ht
    · intro l hl; simp [hl]
    · intro l hl; simp [ih ht hl]

/-- The links of a listed table's joins are links of the list. -/
theorem joinLinks_subset_of_mem {parent : Option String} {t : Table} {ts : List Table}
    (ht : t ∈ ts) : joinLinks t ⊆ tablesLinks parent ts := by
  induction ts with
  | nil => cases ht
  | cons u us ih =>
    rcases List.mem_cons.mp ht with rfl | ht
    · intro l hl; simp [hl]
    · intro l hl; simp [ih ht hl]

/-- At the top level, a link's child is a table with joins or a nested table. -/
theorem child_of_mem_tablesLinks_none {ts : List Table} {l : Link}
    (h : l ∈ tablesLinks none ts) :
    (∃ t ∈ ts, t.name = l.child ∧ t.joins ≠ []) ∨ ∃ t ∈ ts, l.child ∈ declaredNames t.tables := by
  induction ts with
  | nil => simp at h
  | cons t ts ih =>
    simp only [tablesLinks_cons, nestLink, Option.map_none', Option.toList_none, List.append_nil,
      List.mem_append] at h
    rcases h with (h | h) | h
    · obtain ⟨j, hj, rfl⟩ := List.mem_map.mp h
      exact .inl ⟨t, List.mem_cons_self _ _, rfl, List.ne_nil_of_mem hj⟩
    · exact .inr ⟨t, List.mem_cons_self _ _, child_mem_declaredNames h⟩
    · rcases ih h with ⟨u, hu, h⟩ | ⟨u, hu, h⟩
      · exact .inl ⟨u, List.mem_cons_of_mem _ hu, h⟩
      · exact .inr ⟨u, List.mem_cons_of_mem _ hu, h⟩

/-- The names of the top-level tables are among the declared names. -/
theorem map_name_sublist_declaredNames (ts : List Table) :
    (ts.map (·.name)).Sublist (declaredNames ts) := by
  induction ts with
  | nil => simp
  | cons t ts ih => simpa using (ih.trans (List.sublist_append_right _ _)).cons_cons t.name

/-- With distinct names, no top-level table's name is also a nested table's name. -/
theorem not_mem_nested_of_nodup {ts : List Table} (hd : (declaredNames ts).Nodup) {t u : Table}
    (ht : t ∈ ts) (hu : u ∈ ts) : t.name ∉ declaredNames u.tables := by
  induction ts with
  | nil => cases ht
  | cons v vs ih =>
    rw [declaredNames_cons, List.nodup_append, List.nodup_cons] at hd
    obtain ⟨⟨hv₁, -⟩, hvs, hdisj⟩ := hd
    have hv₂ : v.name ∉ declaredNames vs := fun h => hdisj (List.mem_cons_self _ _) h
    have hsub : ∀ w ∈ vs, declaredNames w.tables ⊆ declaredNames vs := fun w hw x hx => by
      obtain ⟨t', ht', rfl⟩ := mem_declaredNames.mp hx
      exact mem_declaredNames.mpr ⟨t', declaredTables_subset_of_mem hw ht', rfl⟩
    have hvs' : ∀ w ∈ vs, w.name ∈ declaredNames vs := fun w hw =>
      mem_declaredNames.mpr ⟨w, mem_declaredTables_of_mem hw, rfl⟩
    rcases List.mem_cons.mp ht with rfl | htv <;> rcases List.mem_cons.mp hu with rfl | huv
    · exact hv₁
    · exact fun h => hv₂ (hsub u huv h)
    · exact fun h => hdisj (List.mem_cons_of_mem _ h) (hvs' t htv)
    · exact ih hvs htv huv

/-- When every join resolves, both ends of every link are declared tables. -/
theorem mem_declaredNames_of_mem_declaredLinks {tables : List Table} (hj : JoinsDeclared tables)
    {l : Link} (h : l ∈ declaredLinks tables) :
    l.parent ∈ declaredNames tables ∧ l.child ∈ declaredNames tables := by
  refine ⟨?_, child_mem_declaredNames h⟩
  rcases parent_of_mem_tablesLinks h with h | h | ⟨t, ht, j, hj', he⟩
  · cases h
  · exact h
  · exact he ▸ hj t ht j hj'

/-! ## Links that join the same tables -/

/-- Two links join the same two tables, in one direction or the other. -/
def Link.SameEnds (a b : Link) : Prop :=
  (a.parent = b.parent ∧ a.child = b.child) ∨ (a.parent = b.child ∧ a.child = b.parent)

/-- No two links join the same two tables and no table belongs to itself. -/
def LinksSimple (links : List Link) : Prop :=
  links.Pairwise (fun a b => ¬ a.SameEnds b) ∧ ∀ l ∈ links, l.parent ≠ l.child

instance (links : List Link) : Decidable (LinksSimple links) :=
  by unfold LinksSimple Link.SameEnds; infer_instance

/-- The tables a link joins the table `x` to: the child if `x` is the parent, the parent if `x` is
the child. -/
def linkTargets (x : String) (l : Link) : List String :=
  (if l.parent = x then [l.child] else []) ++ (if l.child = x then [l.parent] else [])

theorem mem_linkTargets {x y : String} {l : Link} :
    y ∈ linkTargets x l ↔ (l.parent = x ∧ l.child = y) ∨ (l.child = x ∧ l.parent = y) := by
  unfold linkTargets
  split_ifs <;> simp_all [eq_comm]

theorem sameEnds_of_mem_linkTargets {x y : String} {a b : Link} (ha : y ∈ linkTargets x a)
    (hb : y ∈ linkTargets x b) : a.SameEnds b := by
  rw [mem_linkTargets] at ha hb
  unfold Link.SameEnds
  rcases ha with ⟨h₁, h₂⟩ | ⟨h₁, h₂⟩ <;> rcases hb with ⟨h₃, h₄⟩ | ⟨h₃, h₄⟩ <;>
    simp only [h₁, h₂, h₃, h₄, and_self, true_or, or_true]

/-- Every table is joined to each other table at most once exactly when the links are simple. -/
theorem nodup_linkTargets_iff (links : List Link) :
    (∀ x, (links.flatMap (linkTargets x)).Nodup) ↔ LinksSimple links := by
  simp only [List.nodup_flatMap]
  constructor
  · intro h
    refine ⟨List.pairwise_iff_forall_sublist.mpr fun {a b} hab hsame => ?_, fun l hl hself => ?_⟩
    · have hd := List.pairwise_iff_forall_sublist.mp (h a.parent).2 hab
      have ha : a.child ∈ linkTargets a.parent a := mem_linkTargets.mpr (.inl ⟨rfl, rfl⟩)
      have hb : a.child ∈ linkTargets a.parent b := by
        rw [mem_linkTargets]
        rcases hsame with ⟨h₁, h₂⟩ | ⟨h₁, h₂⟩
        · exact .inl ⟨h₁.symm, h₂.symm⟩
        · exact .inr ⟨h₁.symm, h₂.symm⟩
      exact hd ha hb
    · have := (h l.parent).1 l hl
      simp [linkTargets, hself] at this
  · rintro ⟨hpw, hself⟩ x
    refine ⟨fun l hl => ?_, hpw.imp fun hne y ha hb => hne (sameEnds_of_mem_linkTargets ha hb)⟩
    unfold linkTargets
    split_ifs with h₁ h₂ <;> simp
    exact fun h => hself l hl (h₁.trans h₂.symm)

/-- `t` belongs to `p`: it is nested directly in `p`, or joins `p`. -/
def BelongsTo (tables : List Table) (t p : String) : Prop :=
  ∃ l ∈ declaredLinks tables, l.child = t ∧ l.parent = p

/-- The belongs-to relation has no cycle. -/
def Acyclic (tables : List Table) : Prop :=
  ∀ x, ¬ Relation.TransGen (BelongsTo tables) x x

/-- The zoo of the spec's scenarios, with its nested shops. -/
def zooTable : Table :=
  ⟨"zoo", [⟨"Name", .string⟩, ⟨"State", .string⟩],
    [⟨"shops", [⟨"Name", .string⟩, ⟨"Open", .bool⟩], [], [], false⟩], [], false⟩

/-- The schema of the spec's zoo scenarios. -/
def zooSchema : List Table :=
  [zooTable]

end Bubbly
