import Bubbly.Graph.Node
import Mathlib.Logic.Relation

/-!
# Traversing the schema graph

`Traverse` runs a depth-first search from each root, with a visited set keyed by table name;
`visitSchemaNode` calls the visitor on a node before it marks the node's name and descends into
its edges. The edges of a schema graph come in parent/child pairs, so the graph is cyclic and
the visited set is all that stops the recursion. The model bounds the recursion by fuel, and
`Traverse` gives it the size of the heap.

**Two levels.** `order` is the plain pre-order of that search, with no visitor. The main result,
`traverse_eq`, says that `Traverse` never runs out of fuel and behaves, for every visitor, as the
visitor folded over `order`, stopping at the first error. What `order` contains is then proved
about the search alone:

* `nodup_names_order` — no table name is visited twice;
* `reachable_of_mem_order` — only nodes reachable from the roots are visited;
* `mem_order_of_reachable` — when reachable nodes with one name are one node, every reachable
  node is visited.
-/

namespace Bubbly

namespace SchemaGraph

variable (g : SchemaGraph) {σ : Type} (fnVisit : σ → Nat → Except String σ)

/-! ## The code -/

/-- The loop `Traverse` runs over the roots and `visitSchemaNode` over a node's edges: skip a
node whose name is visited, visit the others in order, stop at the first error. -/
def visitEach (visit : Nat → List String × σ → Option (Except String (List String × σ))) :
    List Nat → List String × σ → Option (Except String (List String × σ))
  | [], st => some (.ok st)
  | p :: ps, st =>
    if g.name p ∈ st.1 then visitEach visit ps st
    else match visit p st with
      | some (.ok st) => visitEach visit ps st
      | r => r

/-- `visitSchemaNode`, with its depth bounded by `fuel` (`none` once the fuel is spent). -/
def visitSchemaNode : Nat → Nat → List String × σ → Option (Except String (List String × σ))
  | 0, _, _ => none
  | fuel + 1, p, (visited, s) =>
    match fnVisit s p with
    | .error e => some (.error e)
    | .ok s =>
      g.visitEach (visitSchemaNode fuel) ((g.node p).edges.map (·.node)) (g.name p :: visited, s)

/-- `SchemaGraph.Traverse`, with the visitor's state threaded through. -/
def traverse (s : σ) : Option (Except String σ) :=
  (g.visitEach (g.visitSchemaNode fnVisit g.heap.length) g.nodes ([], s)).map fun
    | .ok (_, s) => .ok s
    | .error e => .error ("failed to traverse schema graph: " ++ e)

/-! ## The search -/

/-- The loop of the search: the visited names after it, and the nodes it visits in order. -/
def dfsEach (visit : Nat → List String → Option (List String × List Nat)) :
    List Nat → List String → Option (List String × List Nat)
  | [], vis => some (vis, [])
  | p :: ps, vis =>
    if g.name p ∈ vis then dfsEach visit ps vis
    else (visit p vis).bind fun (vis, calls) =>
      (dfsEach visit ps vis).map fun (vis, calls') => (vis, calls ++ calls')

/-- The search from one node, in pre-order. -/
def dfs : Nat → Nat → List String → Option (List String × List Nat)
  | 0, _, _ => none
  | fuel + 1, p, vis =>
    (g.dfsEach (dfs fuel) ((g.node p).edges.map (·.node)) (g.name p :: vis)).map
      fun (vis, calls) => (vis, p :: calls)

/-- The nodes `Traverse` visits, in order. -/
def order : List Nat :=
  ((g.dfsEach (g.dfs g.heap.length) g.nodes []).map (·.2)).getD []

/-! ## The code follows the search -/

/-- `visit` calls `fnVisit` on the nodes `search` visits, in order, and stops at an error. -/
def Follows (visit : Nat → List String × σ → Option (Except String (List String × σ)))
    (search : Nat → List String → Option (List String × List Nat)) : Prop :=
  ∀ p vis vis' calls s, search p vis = some (vis', calls) →
    visit p (vis, s) = some ((fun s => (vis', s)) <$> calls.foldlM fnVisit s)

theorem visitEach_follows {visit} {search} (h : Follows fnVisit visit search) :
    ∀ ps vis vis' calls s, g.dfsEach search ps vis = some (vis', calls) →
      g.visitEach visit ps (vis, s) = some ((fun s => (vis', s)) <$> calls.foldlM fnVisit s)
  | [], vis, vis', calls, s, hd => by
    simp only [dfsEach, Option.some.injEq, Prod.mk.injEq] at hd
    obtain ⟨rfl, rfl⟩ := hd
    rfl
  | p :: ps, vis, vis', calls, s, hd => by
    by_cases hp : g.name p ∈ vis
    · simp only [dfsEach, hp, if_true] at hd
      simp only [visitEach, hp, if_true]
      exact visitEach_follows h ps vis vis' calls s hd
    · simp only [dfsEach, hp, if_false, Option.bind_eq_some, Option.map_eq_some'] at hd
      obtain ⟨⟨vis₁, c₁⟩, h₁, ⟨vis₂, c₂⟩, h₂, he⟩ := hd
      simp only [Prod.mk.injEq] at he
      obtain ⟨rfl, rfl⟩ := he
      simp only [visitEach, hp, if_false, h _ _ _ _ s h₁, List.foldlM_append]
      rcases c₁.foldlM fnVisit s with e | s₁
      · rfl
      · exact visitEach_follows h ps vis₁ _ c₂ s₁ h₂

theorem visitSchemaNode_follows :
    ∀ fuel, Follows fnVisit (g.visitSchemaNode fnVisit fuel) (g.dfs fuel)
  | 0 => by intro p vis vis' calls s hd; simp [dfs] at hd
  | fuel + 1 => by
    intro p vis vis' calls s hd
    simp only [dfs, Option.map_eq_some'] at hd
    obtain ⟨⟨vis₁, c₁⟩, h₁, he⟩ := hd
    simp only [Prod.mk.injEq] at he
    obtain ⟨rfl, rfl⟩ := he
    simp only [visitSchemaNode, List.foldlM_cons]
    rcases fnVisit s p with e | s₁
    · rfl
    · exact g.visitEach_follows fnVisit (visitSchemaNode_follows fuel) _ _ _ _ s₁ h₁

/-! ## The visited set -/

/-- A search adds to the visited set exactly the names of the nodes it visits. -/
def Marks (search : Nat → List String → Option (List String × List Nat)) : Prop :=
  ∀ p vis vis' calls, search p vis = some (vis', calls) → vis' = (calls.map g.name).reverse ++ vis

theorem dfsEach_marks {search} (h : g.Marks search) :
    ∀ ps vis vis' calls, g.dfsEach search ps vis = some (vis', calls) →
      vis' = (calls.map g.name).reverse ++ vis
  | [], vis, vis', calls, hd => by
    simp only [dfsEach, Option.some.injEq, Prod.mk.injEq] at hd
    obtain ⟨rfl, rfl⟩ := hd
    rfl
  | p :: ps, vis, vis', calls, hd => by
    by_cases hp : g.name p ∈ vis
    · simp only [dfsEach, hp, if_true] at hd
      exact dfsEach_marks h ps vis vis' calls hd
    · simp only [dfsEach, hp, if_false, Option.bind_eq_some, Option.map_eq_some'] at hd
      obtain ⟨⟨vis₁, c₁⟩, h₁, ⟨vis₂, c₂⟩, h₂, he⟩ := hd
      simp only [Prod.mk.injEq] at he
      obtain ⟨rfl, rfl⟩ := he
      rw [dfsEach_marks h ps vis₁ _ c₂ h₂, h p vis vis₁ c₁ h₁]
      simp

theorem dfs_marks : ∀ fuel, g.Marks (g.dfs fuel)
  | 0 => by intro p vis vis' calls hd; simp [dfs] at hd
  | fuel + 1 => by
    intro p vis vis' calls hd
    simp only [dfs, Option.map_eq_some'] at hd
    obtain ⟨⟨vis₁, c₁⟩, h₁, he⟩ := hd
    simp only [Prod.mk.injEq] at he
    obtain ⟨rfl, rfl⟩ := he
    rw [g.dfsEach_marks (dfs_marks fuel) _ _ _ _ h₁]
    simp

/-! ## Termination -/

/-- The heap cells whose name is not yet visited: the search's measure. -/
def pending (vis : List String) : Nat :=
  g.heap.countP fun n => n.table.name ∉ vis

private theorem countP_lt_countP {α : Type} {p q : α → Bool} :
    ∀ {l : List α}, (∀ x ∈ l, p x → q x) → ∀ {a}, a ∈ l → q a → ¬ p a →
      l.countP p < l.countP q
  | [], _, _, ha, _, _ => by cases ha
  | y :: l, hpq, a, ha, hq, hp => by
    have hle := List.countP_mono_left fun x hx => hpq x (List.mem_cons_of_mem _ hx)
    rw [List.countP_cons, List.countP_cons]
    rcases List.mem_cons.mp ha with rfl | ha
    · rw [if_pos hq, if_neg hp]; omega
    · have hlt := countP_lt_countP (fun x hx => hpq x (List.mem_cons_of_mem _ hx)) ha hq hp
      have hy : (if p y then 1 else 0) ≤ if q y then 1 else 0 := by
        by_cases h : p y <;> simp [h, hpq y (List.mem_cons_self _ _)]
      omega

theorem pending_anti {vis vis' : List String} (h : vis ⊆ vis') : g.pending vis' ≤ g.pending vis :=
  List.countP_mono_left fun _ _ hn => by simp only [decide_eq_true_eq] at hn ⊢; exact mt (@h _) hn

theorem pending_cons_lt {p : Nat} (hp : p < g.heap.length) {vis : List String}
    (hv : g.name p ∉ vis) : g.pending (g.name p :: vis) < g.pending vis := by
  refine countP_lt_countP (fun _ _ hn => ?_) (List.getElem_mem hp) ?_ ?_
  · simp only [List.mem_cons, not_or, decide_eq_true_eq] at hn ⊢; exact hn.2
  · simpa [name, nameOf, deref_of_lt hp] using hv
  · simp [name, nameOf, deref_of_lt hp]

theorem pending_pos {p : Nat} (hp : p < g.heap.length) {vis : List String}
    (hv : g.name p ∉ vis) : 0 < g.pending vis :=
  Nat.lt_of_le_of_lt (Nat.zero_le _) (g.pending_cons_lt hp hv)

/-- A search with measure below `F` returns, from any node not yet visited. -/
def Returns (F : Nat) (search : Nat → List String → Option (List String × List Nat)) : Prop :=
  ∀ p vis, p < g.heap.length → g.name p ∉ vis → g.pending vis ≤ F → (search p vis).isSome

theorem dfsEach_returns {search} {F : Nat} (hm : g.Marks search) (h : g.Returns F search) :
    ∀ ps vis, (∀ p ∈ ps, p < g.heap.length) → g.pending vis ≤ F →
      (g.dfsEach search ps vis).isSome
  | [], _, _, _ => rfl
  | p :: ps, vis, hps, hF => by
    by_cases hp : g.name p ∈ vis
    · simpa [dfsEach, hp] using
        dfsEach_returns hm h ps vis (fun q hq => hps q (List.mem_cons_of_mem _ hq)) hF
    · obtain ⟨⟨vis₁, c₁⟩, h₁⟩ :=
        Option.isSome_iff_exists.mp (h p vis (hps p (List.mem_cons_self _ _)) hp hF)
      have hF₁ : g.pending vis₁ ≤ F := by
        rw [hm p vis vis₁ c₁ h₁]
        exact (g.pending_anti (List.subset_append_right _ _)).trans hF
      obtain ⟨⟨vis₂, c₂⟩, h₂⟩ := Option.isSome_iff_exists.mp
        (dfsEach_returns hm h ps vis₁ (fun q hq => hps q (List.mem_cons_of_mem _ hq)) hF₁)
      simp [dfsEach, hp, h₁, h₂]

theorem dfs_returns : ∀ fuel, g.Returns fuel (g.dfs fuel)
  | 0 => fun p vis hp hv hF => absurd hF (by have := g.pending_pos hp hv; omega)
  | fuel + 1 => fun p vis hp hv hF => by
    have hF' : g.pending (g.name p :: vis) ≤ fuel := by
      have := g.pending_cons_lt hp hv; omega
    have hedges : ∀ q ∈ (g.node p).edges.map (·.node), q < g.heap.length := by
      simp only [List.mem_map]
      rintro _ ⟨e, he, rfl⟩
      exact g.edge_node_lt hp he
    simpa [dfs] using g.dfsEach_returns (dfs_marks g fuel) (dfs_returns fuel) _ _ hedges hF'

/-- The search from the roots returns, with `order` as its visits. -/
theorem search_eq : ∃ V, g.dfsEach (g.dfs g.heap.length) g.nodes [] = some (V, g.order) := by
  have hF : g.pending [] ≤ g.heap.length := List.countP_le_length _
  obtain ⟨⟨V, calls⟩, h⟩ := Option.isSome_iff_exists.mp
    (g.dfsEach_returns (g.dfs_marks _) (g.dfs_returns _) g.nodes [] g.nodes_lt hF)
  exact ⟨V, by simp [order, h]⟩

/-- **`Traverse` is the visitor folded over `order`.** It never runs out of fuel, calls the
visitor on the nodes of `order` in turn, and stops with the wrapped error at the first call that
fails. -/
theorem traverse_eq (s : σ) :
    g.traverse fnVisit s =
      some ((g.order.foldlM fnVisit s).mapError ("failed to traverse schema graph: " ++ ·)) := by
  obtain ⟨V, h⟩ := g.search_eq
  rw [traverse, g.visitEach_follows fnVisit (g.visitSchemaNode_follows fnVisit _) _ _ _ _ s h]
  rcases g.order.foldlM fnVisit s with e | s' <;> rfl

/-! ## What the search visits -/

/-- From a node not yet visited, a search visits nodes of distinct names, none visited before. -/
def Fresh (search : Nat → List String → Option (List String × List Nat)) : Prop :=
  ∀ p vis vis' calls, search p vis = some (vis', calls) → g.name p ∉ vis →
    (calls.map g.name).Nodup ∧ ∀ x ∈ calls.map g.name, x ∉ vis

theorem dfsEach_fresh {search} (hm : g.Marks search) (hf : g.Fresh search) :
    ∀ ps vis vis' calls, g.dfsEach search ps vis = some (vis', calls) →
      (calls.map g.name).Nodup ∧ ∀ x ∈ calls.map g.name, x ∉ vis
  | [], vis, vis', calls, hd => by
    simp only [dfsEach, Option.some.injEq, Prod.mk.injEq] at hd
    obtain ⟨rfl, rfl⟩ := hd
    simp
  | p :: ps, vis, vis', calls, hd => by
    by_cases hp : g.name p ∈ vis
    · simp only [dfsEach, hp, if_true] at hd
      exact dfsEach_fresh hm hf ps vis vis' calls hd
    · simp only [dfsEach, hp, if_false, Option.bind_eq_some, Option.map_eq_some'] at hd
      obtain ⟨⟨vis₁, c₁⟩, h₁, ⟨vis₂, c₂⟩, h₂, he⟩ := hd
      simp only [Prod.mk.injEq] at he
      obtain ⟨rfl, rfl⟩ := he
      obtain ⟨hn₁, hd₁⟩ := hf p vis vis₁ c₁ h₁ hp
      obtain ⟨hn₂, hd₂⟩ := dfsEach_fresh hm hf ps vis₁ _ c₂ h₂
      rw [hm p vis vis₁ c₁ h₁] at hd₂
      refine ⟨?_, fun x hx => ?_⟩
      · rw [List.map_append, List.nodup_append]
        exact ⟨hn₁, hn₂, fun x h₁ h₂ => hd₂ x h₂ (by simp [h₁])⟩
      · rw [List.map_append, List.mem_append] at hx
        rcases hx with hx | hx
        · exact hd₁ x hx
        · exact fun hv => hd₂ x hx (by simp [hv])

theorem dfs_fresh : ∀ fuel, g.Fresh (g.dfs fuel)
  | 0 => by intro p vis vis' calls hd; simp [dfs] at hd
  | fuel + 1 => by
    intro p vis vis' calls hd hp
    simp only [dfs, Option.map_eq_some'] at hd
    obtain ⟨⟨vis₁, c₁⟩, h₁, he⟩ := hd
    simp only [Prod.mk.injEq] at he
    obtain ⟨rfl, rfl⟩ := he
    obtain ⟨hn, hd⟩ := g.dfsEach_fresh (g.dfs_marks fuel) (dfs_fresh fuel) _ _ _ _ h₁
    refine ⟨?_, ?_⟩
    · simp only [List.map_cons, List.nodup_cons]
      exact ⟨fun h => hd _ h (List.mem_cons_self _ _), hn⟩
    · simp only [List.map_cons, List.mem_cons, forall_eq_or_imp]
      exact ⟨hp, fun x hx hv => hd x hx (List.mem_cons_of_mem _ hv)⟩

/-- `Traverse` visits no table name twice. -/
theorem nodup_names_order : (g.order.map g.name).Nodup := by
  obtain ⟨V, h⟩ := g.search_eq
  exact (g.dfsEach_fresh (g.dfs_marks _) (g.dfs_fresh _) _ _ _ _ h).1

/-- An edge of the graph, of any relationship. -/
def Edge (p q : Nat) : Prop :=
  ∃ e ∈ (g.node p).edges, e.node = q

/-- A node reachable from a root of the graph. -/
def Reachable (q : Nat) : Prop :=
  ∃ r ∈ g.nodes, Relation.ReflTransGen g.Edge r q

/-- A search visits only nodes reachable from where it starts. -/
def Sound (search : Nat → List String → Option (List String × List Nat)) : Prop :=
  ∀ p vis vis' calls, search p vis = some (vis', calls) →
    ∀ q ∈ calls, Relation.ReflTransGen g.Edge p q

theorem dfsEach_sound {search} (h : g.Sound search) :
    ∀ ps vis vis' calls, g.dfsEach search ps vis = some (vis', calls) →
      ∀ q ∈ calls, ∃ p ∈ ps, Relation.ReflTransGen g.Edge p q
  | [], vis, vis', calls, hd => by
    simp only [dfsEach, Option.some.injEq, Prod.mk.injEq] at hd
    obtain ⟨rfl, rfl⟩ := hd
    simp
  | p :: ps, vis, vis', calls, hd => by
    by_cases hp : g.name p ∈ vis
    · simp only [dfsEach, hp, if_true] at hd
      intro q hq
      obtain ⟨p', hp', hr⟩ := dfsEach_sound h ps vis vis' calls hd q hq
      exact ⟨p', List.mem_cons_of_mem _ hp', hr⟩
    · simp only [dfsEach, hp, if_false, Option.bind_eq_some, Option.map_eq_some'] at hd
      obtain ⟨⟨vis₁, c₁⟩, h₁, ⟨vis₂, c₂⟩, h₂, he⟩ := hd
      simp only [Prod.mk.injEq] at he
      obtain ⟨rfl, rfl⟩ := he
      intro q hq
      rcases List.mem_append.mp hq with hq | hq
      · exact ⟨p, List.mem_cons_self _ _, h p vis vis₁ c₁ h₁ q hq⟩
      · obtain ⟨p', hp', hr⟩ := dfsEach_sound h ps vis₁ _ c₂ h₂ q hq
        exact ⟨p', List.mem_cons_of_mem _ hp', hr⟩

theorem dfs_sound : ∀ fuel, g.Sound (g.dfs fuel)
  | 0 => by intro p vis vis' calls hd; simp [dfs] at hd
  | fuel + 1 => by
    intro p vis vis' calls hd
    simp only [dfs, Option.map_eq_some'] at hd
    obtain ⟨⟨vis₁, c₁⟩, h₁, he⟩ := hd
    simp only [Prod.mk.injEq] at he
    obtain ⟨rfl, rfl⟩ := he
    intro q hq
    rcases List.mem_cons.mp hq with rfl | hq
    · exact Relation.ReflTransGen.refl
    · obtain ⟨p', hp', hr⟩ := g.dfsEach_sound (dfs_sound fuel) _ _ _ _ h₁ q hq
      obtain ⟨e, he, rfl⟩ := List.mem_map.mp hp'
      exact Relation.ReflTransGen.head ⟨e, he, rfl⟩ hr

/-- `Traverse` visits only nodes reachable from the roots. -/
theorem reachable_of_mem_order {q : Nat} (hq : q ∈ g.order) : g.Reachable q := by
  obtain ⟨V, h⟩ := g.search_eq
  exact g.dfsEach_sound (g.dfs_sound _) _ _ _ _ h q hq

/-- After a search, the node it started from is visited, and so is every neighbour of every node
it visited. -/
def Closed (search : Nat → List String → Option (List String × List Nat)) : Prop :=
  ∀ p vis vis' calls, search p vis = some (vis', calls) →
    g.name p ∈ vis' ∧ ∀ q ∈ calls, ∀ e ∈ (g.node q).edges, g.name e.node ∈ vis'

theorem dfsEach_closed {search} (hm : g.Marks search) (hc : g.Closed search) :
    ∀ ps vis vis' calls, g.dfsEach search ps vis = some (vis', calls) →
      (∀ p ∈ ps, g.name p ∈ vis') ∧ ∀ q ∈ calls, ∀ e ∈ (g.node q).edges, g.name e.node ∈ vis'
  | [], vis, vis', calls, hd => by
    simp only [dfsEach, Option.some.injEq, Prod.mk.injEq] at hd
    obtain ⟨rfl, rfl⟩ := hd
    simp
  | p :: ps, vis, vis', calls, hd => by
    have hsub := g.dfsEach_marks hm (p :: ps) vis vis' calls hd
    by_cases hp : g.name p ∈ vis
    · simp only [dfsEach, hp, if_true] at hd
      obtain ⟨hps, hcalls⟩ := dfsEach_closed hm hc ps vis vis' calls hd
      exact ⟨List.forall_mem_cons.mpr ⟨by simp [hsub, hp], hps⟩, hcalls⟩
    · simp only [dfsEach, hp, if_false, Option.bind_eq_some, Option.map_eq_some'] at hd
      obtain ⟨⟨vis₁, c₁⟩, h₁, ⟨vis₂, c₂⟩, h₂, he⟩ := hd
      simp only [Prod.mk.injEq] at he
      obtain ⟨rfl, rfl⟩ := he
      have hmono : vis₁ ⊆ vis₂ := by
        rw [g.dfsEach_marks hm ps vis₁ _ c₂ h₂]; exact List.subset_append_right _ _
      obtain ⟨hp₁, hc₁⟩ := hc p vis vis₁ c₁ h₁
      obtain ⟨hps, hc₂⟩ := dfsEach_closed hm hc ps vis₁ _ c₂ h₂
      refine ⟨List.forall_mem_cons.mpr ⟨hmono hp₁, hps⟩, fun q hq e he => ?_⟩
      rcases List.mem_append.mp hq with hq | hq
      · exact hmono (hc₁ q hq e he)
      · exact hc₂ q hq e he

theorem dfs_closed : ∀ fuel, g.Closed (g.dfs fuel)
  | 0 => by intro p vis vis' calls hd; simp [dfs] at hd
  | fuel + 1 => by
    intro p vis vis' calls hd
    simp only [dfs, Option.map_eq_some'] at hd
    obtain ⟨⟨vis₁, c₁⟩, h₁, he⟩ := hd
    simp only [Prod.mk.injEq] at he
    obtain ⟨rfl, rfl⟩ := he
    obtain ⟨hps, hcalls⟩ := g.dfsEach_closed (g.dfs_marks fuel) (dfs_closed fuel) _ _ _ _ h₁
    refine ⟨by simp [g.dfsEach_marks (g.dfs_marks fuel) _ _ _ _ h₁], fun q hq e he => ?_⟩
    rcases List.mem_cons.mp hq with rfl | hq
    · exact hps e.node (List.mem_map_of_mem _ he)
    · exact hcalls q hq e he

/-- Reachable nodes that share a table name are one node. -/
def NamesUnique : Prop :=
  ∀ p q, g.Reachable p → g.Reachable q → g.name p = g.name q → p = q

/-- `Traverse` visits the name of every root, and of the target of every edge of a node it
visits. -/
theorem names_order_closed :
    (∀ r ∈ g.nodes, g.name r ∈ g.order.map g.name) ∧
      ∀ q ∈ g.order, ∀ e ∈ (g.node q).edges, g.name e.node ∈ g.order.map g.name := by
  obtain ⟨V, h⟩ := g.search_eq
  obtain ⟨hroots, hedges⟩ := g.dfsEach_closed (g.dfs_marks _) (g.dfs_closed _) _ _ _ _ h
  rw [g.dfsEach_marks (g.dfs_marks _) _ _ _ _ h, List.append_nil] at hroots hedges
  exact ⟨fun r hr => List.mem_reverse.mp (hroots r hr),
    fun q hq e he => List.mem_reverse.mp (hedges q hq e he)⟩

/-- When reachable nodes with one name are one node, `Traverse` visits every reachable node. -/
theorem mem_order_of_reachable (hu : g.NamesUnique) {q : Nat} (hq : g.Reachable q) :
    q ∈ g.order := by
  obtain ⟨V, h⟩ := g.search_eq
  obtain ⟨hroots, hedges⟩ := g.dfsEach_closed (g.dfs_marks _) (g.dfs_closed _) _ _ _ _ h
  have hV := g.dfsEach_marks (g.dfs_marks _) _ _ _ _ h
  have hfind : ∀ x, g.Reachable x → g.name x ∈ V → x ∈ g.order := by
    intro x hx hxV
    simp only [hV, List.append_nil, List.mem_reverse, List.mem_map] at hxV
    obtain ⟨c, hc, hname⟩ := hxV
    rwa [← hu c x (g.reachable_of_mem_order hc) hx hname]
  obtain ⟨r, hr, hpath⟩ := hq
  induction hpath with
  | refl => exact hfind r ⟨r, hr, .refl⟩ (hroots r hr)
  | tail hpath hedge ih =>
    obtain ⟨e, he, rfl⟩ := hedge
    exact hfind _ ⟨r, hr, hpath.tail ⟨e, he, rfl⟩⟩ (hedges _ ih e he)

/-- **`Traverse`.** For every graph and every visitor: `Traverse` returns, as the visitor folded
over the pre-order `order` (so after a failing call it calls the visitor on no later node); the
search visits no table name twice and only reachable nodes; and when reachable nodes that share a
name are one node, it visits every reachable node. -/
theorem traverse_visits_reachable_once (s : σ) :
    g.traverse fnVisit s =
        some ((g.order.foldlM fnVisit s).mapError ("failed to traverse schema graph: " ++ ·)) ∧
      (g.order.map g.name).Nodup ∧ (∀ q ∈ g.order, g.Reachable q) ∧
      (g.NamesUnique → ∀ q, g.Reachable q → q ∈ g.order) :=
  ⟨g.traverse_eq fnVisit s, g.nodup_names_order, fun _ => g.reachable_of_mem_order,
    fun hu _ => g.mem_order_of_reachable hu⟩

end SchemaGraph

/-- A table with only a name. -/
def bareTable (name : String) : Table :=
  ⟨name, [], [], [], false⟩

/-- Two nodes named `x`: a root with no edges, and the child of the root `r`, with its own
child `y`. -/
def twoNamedX : SchemaGraph where
  heap := [⟨bareTable "x", []⟩, ⟨bareTable "r", [⟨2, .oneToMany⟩]⟩,
    ⟨bareTable "x", [⟨1, .belongsTo⟩, ⟨3, .oneToMany⟩]⟩, ⟨bareTable "y", [⟨2, .belongsTo⟩]⟩]
  nodes := [0, 1]
  nodeIndex _ := none
  nodes_lt := by decide
  edges_lt := by decide
  nodeIndex_lt _ _ h := by cases h

/-- `y` is reachable from the root `r`, but a visitor that records the names it is called on
never sees it: the `x` under `r` is skipped as visited. -/
theorem traverse_misses_reachable_name :
    twoNamedX.Reachable 3 ∧ twoNamedX.name 3 = "y" ∧
      twoNamedX.traverse (fun l p => .ok (l ++ [twoNamedX.name p])) [] =
        some (.ok ["x", "r"]) :=
  ⟨⟨1, by decide, .tail (.single ⟨⟨2, .oneToMany⟩, by decide, rfl⟩)
      ⟨⟨3, .oneToMany⟩, by decide, rfl⟩⟩, rfl, rfl⟩

end Bubbly
