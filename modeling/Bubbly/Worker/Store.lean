import Bubbly.Worker.ImplicitIDs
import Mathlib.Logic.Relation
import Mathlib.Logic.Function.Basic

/-!
# The store's schema under concurrent calls

`Store.Create` gives the provider the tables with their implicit identifiers and then builds the
GraphQL schema of them; `Store.Save` gives the provider data blocks, which answers with its
tables, and builds the schema of those. Each call builds its schema outside the store's lock
and takes the lock only to assign it; `Schema` and `Query` read it under the read lock.

The provider and the schema builder are not among these sources and are parameters:
`providerCreate` and `providerSave` are the provider's answers, as functions of its state, and
`newGraphQLSchema` the schema of a list of tables. (`Create` calls `newGraphQLSchema(tables,
s.p)`, a version older than the graph-based one of `graphql.go`.) A failed provider call leaves
the provider's state as it was, as its transaction is rolled back.

`Step g` is one move of the goroutine `g`: a call of `Create` or `Save`, the provider's answer,
the build, and the assignment under the lock. `accepted` records the tables the provider took,
in order.

**Theorem (`store_schema_accepted`).** In every interleaving of any calls from any goroutines,
the schema `Schema` and `Query` read is the store's first one or the schema of tables the
provider took: a call whose provider call or build fails never changes it.

**Theorem (`store_schema_race`).** It need not be the schema of the tables the provider took
last: when two goroutines call `Create`, the provider can take the second call's tables last
while the store ends with the schema of the first.
-/

namespace Bubbly

namespace Store

/-- Where a goroutine is in its call of `Create` or `Save`: between calls (with the last call's
result), before the provider's `Create` or `Save`, before `newGraphQLSchema`, or before the locked
assignment. -/
inductive Pc (S D : Type)
  | ready (err : Option String)
  | create (tables : List Table)
  | save (data : D)
  | build (tables : List Table)
  | assign (schema : S)

/-- The goroutines' calls, the provider's state, the store's schema, and the history of the
tables the provider took. -/
structure State (G S D P : Type) where
  pc : G → Pc S D
  provider : P
  schema : S
  accepted : List (List Table)

def State.init {G S D P : Type} (provider : P) (zero : S) : State G S D P :=
  ⟨fun _ => .ready none, provider, zero, []⟩

section Steps

variable {G S D P : Type} [DecidableEq G]
  (providerCreate : P → List Table → Except String P)
  (providerSave : P → D → Except String (P × List Table))
  (newGraphQLSchema : List Table → Except String S)

/-- One move of the goroutine `g`: it calls `Create` or `Save`; the provider's `Create` of
`addImplicitIDs(nil, tables)` or its `Save` succeeds or fails; `newGraphQLSchema` succeeds or
fails; or it takes `s.mu`, assigns the schema, and its call returns nil. -/
inductive Step (g : G) : State G S D P → State G S D P → Prop
  | callCreate {s : State G S D P} {err : Option String} (tables : List Table) :
      s.pc g = .ready err → Step g s { s with pc := Function.update s.pc g (.create tables) }
  | callSave {s : State G S D P} {err : Option String} (data : D) :
      s.pc g = .ready err → Step g s { s with pc := Function.update s.pc g (.save data) }
  | create {s : State G S D P} {tables : List Table} {p : P} : s.pc g = .create tables →
      providerCreate s.provider (addImplicitIDs none tables) = .ok p →
      Step g s
        { s with pc := Function.update s.pc g (.build (addImplicitIDs none tables)),
                 provider := p, accepted := s.accepted ++ [addImplicitIDs none tables] }
  | createFail {s : State G S D P} {tables : List Table} {e : String} : s.pc g = .create tables →
      providerCreate s.provider (addImplicitIDs none tables) = .error e →
      Step g s
        { s with
          pc := Function.update s.pc g (.ready (some ("failed to create in provider: " ++ e))) }
  | save {s : State G S D P} {data : D} {p : P} {tables : List Table} : s.pc g = .save data →
      providerSave s.provider data = .ok (p, tables) →
      Step g s
        { s with pc := Function.update s.pc g (.build tables), provider := p,
                 accepted := s.accepted ++ [tables] }
  | saveFail {s : State G S D P} {data : D} {e : String} : s.pc g = .save data →
      providerSave s.provider data = .error e →
      Step g s
        { s with
          pc := Function.update s.pc g (.ready (some ("falied to save data in provider: " ++ e))) }
  | build {s : State G S D P} {tables : List Table} {schema : S} : s.pc g = .build tables →
      newGraphQLSchema tables = .ok schema →
      Step g s { s with pc := Function.update s.pc g (.assign schema) }
  | buildFail {s : State G S D P} {tables : List Table} {e : String} : s.pc g = .build tables →
      newGraphQLSchema tables = .error e →
      Step g s
        { s with
          pc := Function.update s.pc g (.ready (some ("falied to build GraphQL schema: " ++ e))) }
  | assign {s : State G S D P} {schema : S} : s.pc g = .assign schema →
      Step g s { s with pc := Function.update s.pc g (.ready none), schema := schema }

def Reachable (provider : P) (zero : S) (s : State G S D P) : Prop :=
  Relation.ReflTransGen (fun s t => ∃ g, Step providerCreate providerSave newGraphQLSchema g s t)
    (State.init provider zero) s

/-- What holds in every reachable state: the schema is the first one or one built from tables
the provider took, and so is every schema a goroutine is about to assign; every list of tables
a goroutine is about to build a schema of is one the provider took. -/
structure Inv (zero : S) (s : State G S D P) : Prop where
  schema : s.schema = zero ∨ ∃ t ∈ s.accepted, newGraphQLSchema t = .ok s.schema
  build : ∀ g t, s.pc g = .build t → t ∈ s.accepted
  assign : ∀ g x, s.pc g = .assign x → ∃ t ∈ s.accepted, newGraphQLSchema t = .ok x

variable {providerCreate providerSave newGraphQLSchema} {zero : S}

omit [DecidableEq G] in
theorem Inv.append {s : State G S D P} (hi : Inv newGraphQLSchema zero s) (t : List Table)
    (p : P) :
    Inv newGraphQLSchema zero { s with provider := p, accepted := s.accepted ++ [t] } := by
  obtain ⟨hs, hb, ha⟩ := hi
  refine ⟨hs.imp_right ?_, fun g t' h => List.mem_append_left _ (hb g t' h), fun g x h => ?_⟩
  · rintro ⟨t', ht', hx⟩
    exact ⟨t', List.mem_append_left _ ht', hx⟩
  · obtain ⟨t', ht', hx⟩ := ha g x h
    exact ⟨t', List.mem_append_left _ ht', hx⟩

theorem Inv.set {s : State G S D P} (hi : Inv newGraphQLSchema zero s) (g : G) (c : Pc S D)
    (hcb : ∀ t, c = .build t → t ∈ s.accepted)
    (hca : ∀ x, c = .assign x → ∃ t ∈ s.accepted, newGraphQLSchema t = .ok x) :
    Inv newGraphQLSchema zero { s with pc := Function.update s.pc g c } := by
  obtain ⟨hs, hb, ha⟩ := hi
  refine ⟨hs, fun g' t h => ?_, fun g' x h => ?_⟩ <;> by_cases hg' : g' = g
  · subst hg'; exact hcb t (by simpa using h)
  · exact hb g' t (by simpa [Function.update_noteq hg'] using h)
  · subst hg'; exact hca x (by simpa using h)
  · exact ha g' x (by simpa [Function.update_noteq hg'] using h)

theorem Inv.step {s t : State G S D P} {g : G} (hi : Inv newGraphQLSchema zero s)
    (h : Step providerCreate providerSave newGraphQLSchema g s t) :
    Inv newGraphQLSchema zero t := by
  cases h with
  | create => exact (hi.append _ _).set g _ (fun _ h => by cases h; simp) (fun _ => nofun)
  | save => exact (hi.append _ _).set g _ (fun _ h => by cases h; simp) (fun _ => nofun)
  | @build tables schema hg hb =>
    exact hi.set g _ (fun _ => nofun) fun _ h => by cases h; exact ⟨tables, hi.build g _ hg, hb⟩
  | @assign schema hg =>
    have hset := hi.set g (.ready none) (fun _ => nofun) (fun _ => nofun)
    exact ⟨Or.inr (hi.assign g schema hg), hset.build, hset.assign⟩
  | _ => exact hi.set g _ (fun _ => nofun) (fun _ => nofun)

/-- Only an assignment changes the schema, and it ends its call with a nil error. -/
theorem Step.schema_eq {s t : State G S D P} {g : G}
    (h : Step providerCreate providerSave newGraphQLSchema g s t) :
    t.schema = s.schema ∨ s.pc g = .assign t.schema ∧ t.pc g = .ready none := by
  cases h with
  | assign hg => exact .inr ⟨hg, by simp⟩
  | _ => exact .inl rfl

/-- **What the store serves.** In every interleaving of calls of `Create` and `Save` from any
goroutines, the schema `Schema` and `Query` read is the zero schema or the schema built from
tables the provider took; and the only move that changes it is an assignment, which returns nil,
so a call whose provider call or build fails never changes it. -/
theorem store_schema_accepted (provider : P) (zero : S) (s : State G S D P)
    (h : Reachable providerCreate providerSave newGraphQLSchema provider zero s) :
    (s.schema = zero ∨ ∃ t ∈ s.accepted, newGraphQLSchema t = .ok s.schema) ∧
    ∀ g t, Step providerCreate providerSave newGraphQLSchema g s t → t.schema ≠ s.schema →
      s.pc g = .assign t.schema ∧ t.pc g = .ready none := by
  have hi : Inv newGraphQLSchema zero s := by
    induction h with
    | refl => exact ⟨Or.inl rfl, fun _ _ h => (by cases h), fun _ _ h => (by cases h)⟩
    | tail _ hst ih => obtain ⟨g, hst⟩ := hst; exact ih.step hst
  exact ⟨hi.schema, fun g t hst hne => hst.schema_eq.resolve_left hne⟩

/-- One goroutine's `Create` of one table returns nil, and another's `Save` then fails: the store
serves the schema of the table, with its implicit identifier, and the failed `Save` left it. -/
theorem store_schema_accepted_after_failed_save :
    ∃ s, Reachable (fun p _ => .ok (p + 1)) (fun _ (_ : Unit) => .error "no data")
        (fun t => (.ok t.length : Except String Nat)) 0 0 s ∧
      s.pc false = .ready (some "falied to save data in provider: no data") ∧
      s.accepted = [addImplicitIDs none [fieldlessTable]] ∧ s.schema = 1 ∧
      ((s.schema = 0 ∨ ∃ t ∈ s.accepted, (.ok t.length : Except String Nat) = .ok s.schema) ∧
        ∀ g t, Step (fun p _ => .ok (p + 1)) (fun _ (_ : Unit) => .error "no data")
            (fun t => (.ok t.length : Except String Nat)) g s t → t.schema ≠ s.schema →
          s.pc g = .assign t.schema ∧ t.pc g = .ready none) := by
  have trace : Reachable (G := Bool) (fun p _ => .ok (p + 1)) (fun _ (_ : Unit) => .error "no data")
      (fun t => (.ok t.length : Except String Nat)) 0 0 _ :=
    (((((Relation.ReflTransGen.refl.tail ⟨true, Step.callCreate [fieldlessTable] rfl⟩).tail
      ⟨true, Step.create rfl rfl⟩).tail ⟨true, Step.build rfl rfl⟩).tail
      ⟨true, Step.assign rfl⟩).tail ⟨false, Step.callSave () rfl⟩).tail
      ⟨false, Step.saveFail rfl rfl⟩
  exact ⟨_, trace, rfl, rfl, rfl, store_schema_accepted _ _ _ trace⟩

/-- **The race.** Two goroutines call `Create(a)` and `Create(b)`. When the provider takes the
tables of `a` and then those of `b`, and both build, some interleaving returns nil from both
calls and leaves the store with the schema of `a`'s tables, though the provider took `b`'s
last: `b`'s call assigns first. -/
theorem store_schema_race (provider p₁ p₂ : P) (zero sa sb : S) (a b : List Table) {g₁ g₂ : G}
    (hg : g₁ ≠ g₂) (ha : providerCreate provider (addImplicitIDs none a) = .ok p₁)
    (hb : providerCreate p₁ (addImplicitIDs none b) = .ok p₂)
    (hsa : newGraphQLSchema (addImplicitIDs none a) = .ok sa)
    (hsb : newGraphQLSchema (addImplicitIDs none b) = .ok sb) :
    ∃ s, Reachable providerCreate providerSave newGraphQLSchema provider zero s ∧
      s.pc g₁ = .ready none ∧ s.pc g₂ = .ready none ∧
      s.accepted = [addImplicitIDs none a, addImplicitIDs none b] ∧ s.schema = sa := by
  have hg' := Ne.symm hg
  refine ⟨_, ((((((((Relation.ReflTransGen.refl.tail ⟨g₁, Step.callCreate a rfl⟩).tail
    ⟨g₂, @Step.callCreate _ _ _ _ _ _ _ _ g₂ _ none b ?_⟩).tail
    ⟨g₁, @Step.create _ _ _ _ _ _ _ _ g₁ _ a p₁ ?_ ha⟩).tail
    ⟨g₂, @Step.create _ _ _ _ _ _ _ _ g₂ _ b p₂ ?_ hb⟩).tail
    ⟨g₂, @Step.build _ _ _ _ _ _ _ _ g₂ _ _ sb ?_ hsb⟩).tail
    ⟨g₂, @Step.assign _ _ _ _ _ _ _ _ g₂ _ sb ?_⟩).tail
    ⟨g₁, @Step.build _ _ _ _ _ _ _ _ g₁ _ _ sa ?_ hsa⟩).tail
    ⟨g₁, @Step.assign _ _ _ _ _ _ _ _ g₁ _ sa ?_⟩), ?_, ?_, ?_, rfl⟩ <;>
    simp [State.init, Function.update_noteq hg, Function.update_noteq hg']

/-- A provider that counts its calls and a schema that counts the tables: the store can end with
the schema of one table, the first call's, after the provider took the empty list last. -/
theorem store_schema_race_count :
    ∃ s, Reachable (fun p _ => .ok (p + 1)) (fun _ (_ : Unit) => .error "no data")
        (fun t => (.ok t.length : Except String Nat)) 0 0 s ∧
      s.pc true = .ready none ∧ s.pc false = .ready none ∧
      s.accepted = [addImplicitIDs none [fieldlessTable], addImplicitIDs none []] ∧ s.schema = 1 :=
  store_schema_race 0 1 2 0 1 0 [fieldlessTable] [] (by decide) rfl rfl rfl rfl

end Steps

end Store

end Bubbly
