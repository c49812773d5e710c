import Mathlib.Data.List.Basic

/-!
Terms with named definitions. A term is made of nodes of some kind over leaves, and
`define` gives a name to one term inside another, so names are lexically scoped. `scopes`
lists the leaves of a term, each with the names defined around it.
-/

namespace Substrate.Lib

open List

universe u v w

mutual

inductive Term (κ : Type u) (α : Type v) where
  | leaf (a : α)
  | node (kind : κ) (args : Terms κ α)
  | define (name : String) (recursive : Bool) (term body : Term κ α)

inductive Terms (κ : Type u) (α : Type v) where
  | nil
  | cons (head : Term κ α) (tail : Terms κ α)

end

variable {κ : Type u} {α : Type v} {β : Type w}

mutual

def Term.scopes (scope : List String) : Term κ α → List (List String × α)
  | .leaf a => [(scope, a)]
  | .node _ args => args.scopes scope
  | .define name recursive term body =>
    term.scopes (if recursive then name :: scope else scope) ++ body.scopes (name :: scope)

def Terms.scopes (scope : List String) : Terms κ α → List (List String × α)
  | .nil => []
  | .cons head tail => head.scopes scope ++ tail.scopes scope

end

mutual

def Term.defined : Term κ α → List String
  | .leaf _ => []
  | .node _ args => args.defined
  | .define name _ term body => name :: (term.defined ++ body.defined)

def Terms.defined : Terms κ α → List String
  | .nil => []
  | .cons head tail => head.defined ++ tail.defined

end

mutual

def Term.kinds : Term κ α → List κ
  | .leaf _ => []
  | .node kind args => kind :: args.kinds
  | .define _ _ term body => term.kinds ++ body.kinds

def Terms.kinds : Terms κ α → List κ
  | .nil => []
  | .cons head tail => head.kinds ++ tail.kinds

end

mutual

def Term.subst (f : α → Term κ β) : Term κ α → Term κ β
  | .leaf a => f a
  | .node kind args => .node kind (args.subst f)
  | .define name recursive term body => .define name recursive (term.subst f) (body.subst f)

def Terms.subst (f : α → Term κ β) : Terms κ α → Terms κ β
  | .nil => .nil
  | .cons head tail => .cons (head.subst f) (tail.subst f)

end

mutual

def Term.relabel (f : Nat → α → β) (n : Nat) : Term κ α → Term κ β
  | .leaf a => .leaf (f n a)
  | .node kind args => .node kind (args.relabel f n)
  | .define name recursive term body =>
    .define name recursive (term.relabel f n) (body.relabel f (n + (term.scopes []).length))

def Terms.relabel (f : Nat → α → β) (n : Nat) : Terms κ α → Terms κ β
  | .nil => .nil
  | .cons head tail =>
    .cons (head.relabel f n) (tail.relabel f (n + (head.scopes []).length))

end

section Traverse

variable {ε χ : Type*}

mutual

/-- `subst` with replacements that may fail, and that put something out. -/
def Term.traverse (visit : α → Except ε (Term κ β × List χ)) :
    Term κ α → Except ε (Term κ β × List χ)
  | .leaf a => visit a
  | .node kind args =>
    match args.traverse visit with
    | .error e => .error e
    | .ok (args, out) => .ok (.node kind args, out)
  | .define name recursive term body =>
    match term.traverse visit with
    | .error e => .error e
    | .ok (term, out) =>
      match body.traverse visit with
      | .error e => .error e
      | .ok (body, more) => .ok (.define name recursive term body, out ++ more)

def Terms.traverse (visit : α → Except ε (Term κ β × List χ)) :
    Terms κ α → Except ε (Terms κ β × List χ)
  | .nil => .ok (.nil, [])
  | .cons head tail =>
    match head.traverse visit with
    | .error e => .error e
    | .ok (head, out) =>
      match tail.traverse visit with
      | .error e => .error e
      | .ok (tail, more) => .ok (.cons head tail, out ++ more)

end

end Traverse

def Term.leaves (t : Term κ α) : List α := (t.scopes []).map Prod.snd

mutual

theorem Term.length_scopes (scope scope' : List String) :
    ∀ t : Term κ α, (t.scopes scope).length = (t.scopes scope').length
  | .leaf _ => rfl
  | .node _ args => Terms.length_scopes scope scope' args
  | .define name recursive term body => by
      simp only [Term.scopes, length_append]
      rw [Term.length_scopes _ (if recursive then name :: scope' else scope') term,
        Term.length_scopes _ (name :: scope') body]

theorem Terms.length_scopes (scope scope' : List String) :
    ∀ ts : Terms κ α, (ts.scopes scope).length = (ts.scopes scope').length
  | .nil => rfl
  | .cons head tail => by
      simp only [Terms.scopes, length_append]
      rw [Term.length_scopes scope scope' head, Terms.length_scopes scope scope' tail]

end

mutual

theorem Term.map_scopes (scope scope' : List String) :
    ∀ t : Term κ α, (t.scopes scope).map Prod.snd = (t.scopes scope').map Prod.snd
  | .leaf _ => rfl
  | .node _ args => Terms.map_scopes scope scope' args
  | .define name recursive term body => by
      simp only [Term.scopes, map_append]
      rw [Term.map_scopes _ (if recursive then name :: scope' else scope') term,
        Term.map_scopes _ (name :: scope') body]

theorem Terms.map_scopes (scope scope' : List String) :
    ∀ ts : Terms κ α, (ts.scopes scope).map Prod.snd = (ts.scopes scope').map Prod.snd
  | .nil => rfl
  | .cons head tail => by
      simp only [Terms.scopes, map_append]
      rw [Term.map_scopes scope scope' head, Terms.map_scopes scope scope' tail]

end

mutual

theorem Term.scopes_subst (f : α → Term κ β) (scope : List String) :
    ∀ t : Term κ α, (t.subst f).scopes scope =
      (t.scopes scope).flatMap fun leaf => (f leaf.2).scopes leaf.1
  | .leaf a => by simp [Term.subst, Term.scopes]
  | .node _ args => Terms.scopes_subst f scope args
  | .define name recursive term body => by
      simp only [Term.subst, Term.scopes, flatMap_append]
      rw [Term.scopes_subst f _ term, Term.scopes_subst f _ body]

theorem Terms.scopes_subst (f : α → Term κ β) (scope : List String) :
    ∀ ts : Terms κ α, (ts.subst f).scopes scope =
      (ts.scopes scope).flatMap fun leaf => (f leaf.2).scopes leaf.1
  | .nil => rfl
  | .cons head tail => by
      simp only [Terms.subst, Terms.scopes, flatMap_append]
      rw [Term.scopes_subst f scope head, Terms.scopes_subst f scope tail]

end

mutual

theorem Term.defined_subst (f : α → Term κ β) :
    ∀ t : Term κ α, ∀ name ∈ t.defined, name ∈ (t.subst f).defined
  | .leaf _, _, h => by cases h
  | .node _ args, name, h => Terms.defined_subst f args name h
  | .define _ _ term body, name, h => by
      rcases mem_cons.mp h with rfl | h
      · exact mem_cons_self
      · rcases mem_append.mp h with h | h
        · exact mem_cons_of_mem _ (mem_append_left _ (Term.defined_subst f term name h))
        · exact mem_cons_of_mem _ (mem_append_right _ (Term.defined_subst f body name h))

theorem Terms.defined_subst (f : α → Term κ β) :
    ∀ ts : Terms κ α, ∀ name ∈ ts.defined, name ∈ (ts.subst f).defined
  | .nil, _, h => by cases h
  | .cons head tail, name, h => by
      rcases mem_append.mp h with h | h
      · exact mem_append_left _ (Term.defined_subst f head name h)
      · exact mem_append_right _ (Terms.defined_subst f tail name h)

end

mutual

theorem Term.defined_leaf (f : α → Term κ β) (scope : List String) :
    ∀ t : Term κ α, ∀ leaf ∈ t.scopes scope, ∀ name ∈ (f leaf.2).defined, name ∈ (t.subst f).defined
  | .leaf a, leaf, hleaf, name, h => by
      cases mem_singleton.mp hleaf
      exact h
  | .node _ args, leaf, hleaf, name, h => Terms.defined_leaf f scope args leaf hleaf name h
  | .define _ _ term body, leaf, hleaf, name, h => by
      rcases mem_append.mp hleaf with hleaf | hleaf
      · exact mem_cons_of_mem _ (mem_append_left _ (Term.defined_leaf f _ term leaf hleaf name h))
      · exact mem_cons_of_mem _ (mem_append_right _ (Term.defined_leaf f _ body leaf hleaf name h))

theorem Terms.defined_leaf (f : α → Term κ β) (scope : List String) :
    ∀ ts : Terms κ α, ∀ leaf ∈ ts.scopes scope, ∀ name ∈ (f leaf.2).defined,
      name ∈ (ts.subst f).defined
  | .nil, _, hleaf, _, _ => by cases hleaf
  | .cons head tail, leaf, hleaf, name, h => by
      rcases mem_append.mp hleaf with hleaf | hleaf
      · exact mem_append_left _ (Term.defined_leaf f scope head leaf hleaf name h)
      · exact mem_append_right _ (Terms.defined_leaf f scope tail leaf hleaf name h)

end

theorem Term.mem_leaves {t : Term κ α} {scope : List String} {leaf : List String × α}
    (h : leaf ∈ t.scopes scope) : leaf.2 ∈ t.leaves := by
  unfold Term.leaves
  rw [← Term.map_scopes scope [] t]
  exact mem_map.mpr ⟨leaf, h, rfl⟩

mutual

theorem Term.scopes_relabel (f : Nat → α → β) (scope : List String) :
    ∀ (t : Term κ α) (n : Nat), (t.relabel f n).scopes scope =
      (t.scopes scope).mapIdx fun i leaf => (leaf.1, f (n + i) leaf.2)
  | .leaf a, n => rfl
  | .node _ args, n => Terms.scopes_relabel f scope args n
  | .define name recursive term body, n => by
      simp only [Term.relabel, Term.scopes, mapIdx_append]
      rw [Term.scopes_relabel f _ term, Term.scopes_relabel f _ body,
        Term.length_scopes (if recursive then name :: scope else scope) [] term]
      congr 2
      funext i leaf
      rw [Nat.add_assoc, Nat.add_comm i]

theorem Terms.scopes_relabel (f : Nat → α → β) (scope : List String) :
    ∀ (ts : Terms κ α) (n : Nat), (ts.relabel f n).scopes scope =
      (ts.scopes scope).mapIdx fun i leaf => (leaf.1, f (n + i) leaf.2)
  | .nil, n => rfl
  | .cons head tail, n => by
      simp only [Terms.relabel, Terms.scopes, mapIdx_append]
      rw [Term.scopes_relabel f scope head, Terms.scopes_relabel f scope tail,
        Term.length_scopes scope [] head]
      congr 2
      funext i leaf
      rw [Nat.add_assoc, Nat.add_comm i]

end

mutual

theorem Term.kinds_relabel (f : Nat → α → β) :
    ∀ (t : Term κ α) (n : Nat), (t.relabel f n).kinds = t.kinds
  | .leaf _, _ => rfl
  | .node kind args, n => congrArg (kind :: ·) (Terms.kinds_relabel f args n)
  | .define _ _ term body, n => by
      simp only [Term.relabel, Term.kinds]
      rw [Term.kinds_relabel f term, Term.kinds_relabel f body]

theorem Terms.kinds_relabel (f : Nat → α → β) :
    ∀ (ts : Terms κ α) (n : Nat), (ts.relabel f n).kinds = ts.kinds
  | .nil, _ => rfl
  | .cons head tail, n => by
      simp only [Terms.relabel, Terms.kinds]
      rw [Term.kinds_relabel f head, Terms.kinds_relabel f tail]

end

section Traverse

variable {ε χ : Type*} {visit : α → Except ε (Term κ β × List χ)}

mutual

theorem Term.traverse_leaf (scope : List String) :
    ∀ (t : Term κ α) {t' : Term κ β} {out : List χ}, t.traverse visit = .ok (t', out) →
      ∀ leaf ∈ t.scopes scope, ∃ r, visit leaf.2 = .ok r ∧ ∀ c ∈ r.2, c ∈ out
  | .leaf a, t', out, h, leaf, hleaf => by
      cases mem_singleton.mp hleaf
      exact ⟨_, h, fun c hc => hc⟩
  | .node kind args, t', out, h, leaf, hleaf => by
      simp only [Term.traverse] at h
      split at h
      · cases h
      · next args' out' hargs =>
          cases h
          exact Terms.traverse_leaf scope args hargs leaf hleaf
  | .define name recursive term body, t', out, h, leaf, hleaf => by
      simp only [Term.traverse] at h
      split at h
      · cases h
      · next term' out' hterm =>
          split at h
          · cases h
          · next body' more hbody =>
              cases h
              rcases mem_append.mp hleaf with hleaf | hleaf
              · obtain ⟨r, hr, hout⟩ := Term.traverse_leaf _ term hterm leaf hleaf
                exact ⟨r, hr, fun c hc => mem_append_left _ (hout c hc)⟩
              · obtain ⟨r, hr, hout⟩ := Term.traverse_leaf _ body hbody leaf hleaf
                exact ⟨r, hr, fun c hc => mem_append_right _ (hout c hc)⟩

theorem Terms.traverse_leaf (scope : List String) :
    ∀ (ts : Terms κ α) {ts' : Terms κ β} {out : List χ}, ts.traverse visit = .ok (ts', out) →
      ∀ leaf ∈ ts.scopes scope, ∃ r, visit leaf.2 = .ok r ∧ ∀ c ∈ r.2, c ∈ out
  | .nil, _, _, _, _, hleaf => by cases hleaf
  | .cons head tail, ts', out, h, leaf, hleaf => by
      simp only [Terms.traverse] at h
      split at h
      · cases h
      · next head' out' hhead =>
          split at h
          · cases h
          · next tail' more htail =>
              cases h
              rcases mem_append.mp hleaf with hleaf | hleaf
              · obtain ⟨r, hr, hout⟩ := Term.traverse_leaf scope head hhead leaf hleaf
                exact ⟨r, hr, fun c hc => mem_append_left _ (hout c hc)⟩
              · obtain ⟨r, hr, hout⟩ := Terms.traverse_leaf scope tail htail leaf hleaf
                exact ⟨r, hr, fun c hc => mem_append_right _ (hout c hc)⟩

end

mutual

theorem Term.traverse_subst {g : α → Term κ β} (hg : ∀ a r, visit a = .ok r → g a = r.1) :
    ∀ (t : Term κ α) {t' : Term κ β} {out : List χ},
      t.traverse visit = .ok (t', out) → t' = t.subst g
  | .leaf a, t', out, h => (hg a _ h).symm
  | .node kind args, t', out, h => by
      simp only [Term.traverse] at h
      split at h
      · cases h
      · next args' out' hargs =>
          cases h
          rw [Terms.traverse_subst hg args hargs]
          rfl
  | .define name recursive term body, t', out, h => by
      simp only [Term.traverse] at h
      split at h
      · cases h
      · next term' out' hterm =>
          split at h
          · cases h
          · next body' more hbody =>
              cases h
              rw [Term.traverse_subst hg term hterm, Term.traverse_subst hg body hbody]
              rfl

theorem Terms.traverse_subst {g : α → Term κ β} (hg : ∀ a r, visit a = .ok r → g a = r.1) :
    ∀ (ts : Terms κ α) {ts' : Terms κ β} {out : List χ},
      ts.traverse visit = .ok (ts', out) → ts' = ts.subst g
  | .nil, _, _, h => by
      cases h
      rfl
  | .cons head tail, ts', out, h => by
      simp only [Terms.traverse] at h
      split at h
      · cases h
      · next head' out' hhead =>
          split at h
          · cases h
          · next tail' more htail =>
              cases h
              rw [Term.traverse_subst hg head hhead, Terms.traverse_subst hg tail htail]
              rfl

end

end Traverse

/-- How meanings are put together. Environments give names meanings of some type `γ`. -/
structure Sense (κ α γ μ : Type*) where
  leaf : (String → Option γ) → α → μ
  node : κ → List μ → μ
  named : μ → γ
  /-- The meaning of a definition that names itself. -/
  fixed : (γ → μ) → μ

def bindName {γ : Type*} (env : String → Option γ) (name : String) (value : γ) :
    String → Option γ :=
  fun other => if other = name then some value else env other

section Meaning

variable {γ μ : Type*}

mutual

def Term.eval (sense : Sense κ α γ μ) (env : String → Option γ) : Term κ α → μ
  | .leaf a => sense.leaf env a
  | .node kind args => sense.node kind (args.eval sense env)
  | .define name recursive term body =>
    let meaning :=
      if recursive then sense.fixed fun value => term.eval sense (bindName env name value)
      else term.eval sense env
    body.eval sense (bindName env name (sense.named meaning))

def Terms.eval (sense : Sense κ α γ μ) (env : String → Option γ) : Terms κ α → List μ
  | .nil => []
  | .cons head tail => head.eval sense env :: tail.eval sense env

end

/-- Environments that agree on the names in scope, and are two given ones outside. -/
def Around (base₁ base₂ : String → Option γ) (scope : List String)
    (env₁ env₂ : String → Option γ) : Prop :=
  ∀ name, if name ∈ scope then env₁ name = env₂ name
    else env₁ name = base₁ name ∧ env₂ name = base₂ name

theorem Around.nil (base₁ base₂ : String → Option γ) : Around base₁ base₂ [] base₁ base₂ := by
  intro name
  rw [if_neg not_mem_nil]
  exact ⟨rfl, rfl⟩

theorem Around.bindName {base₁ base₂ env₁ env₂ : String → Option γ} {scope : List String}
    (h : Around base₁ base₂ scope env₁ env₂) (name : String) (value : γ) :
    Around base₁ base₂ (name :: scope) (bindName env₁ name value) (bindName env₂ name value) := by
  intro other
  have hother := h other
  unfold Lib.bindName
  by_cases hname : other = name
  · simp [hname]
  · simpa [hname] using hother

variable {sense₁ sense₂ : Sense κ α γ μ} {base₁ base₂ : String → Option γ}

mutual

theorem Term.eval_congr (hnamed : sense₁.named = sense₂.named)
    (hfixed : sense₁.fixed = sense₂.fixed) :
    ∀ (t : Term κ α) (scope : List String) (env₁ env₂ : String → Option γ),
      Around base₁ base₂ scope env₁ env₂ →
      (∀ kind ∈ t.kinds, sense₁.node kind = sense₂.node kind) →
      (∀ leaf ∈ t.scopes scope, ∀ env₁ env₂, Around base₁ base₂ leaf.1 env₁ env₂ →
        sense₁.leaf env₁ leaf.2 = sense₂.leaf env₂ leaf.2) →
      t.eval sense₁ env₁ = t.eval sense₂ env₂
  | .leaf a, scope, env₁, env₂, haround, _, hleaf =>
    hleaf (scope, a) (mem_singleton.mpr rfl) env₁ env₂ haround
  | .node kind args, scope, env₁, env₂, haround, hkind, hleaf => by
      have hargs := Terms.eval_congr hnamed hfixed args scope env₁ env₂ haround
        (fun k hk => hkind k (mem_cons_of_mem _ hk)) hleaf
      simp only [Term.eval]
      rw [hargs, hkind kind mem_cons_self]
  | .define name recursive term body, scope, env₁, env₂, haround, hkind, hleaf => by
      have hterm : (if recursive then
            sense₁.fixed fun value => term.eval sense₁ (bindName env₁ name value)
          else term.eval sense₁ env₁) =
          (if recursive then
            sense₂.fixed fun value => term.eval sense₂ (bindName env₂ name value)
          else term.eval sense₂ env₂) := by
        have hkinds : ∀ k ∈ term.kinds, sense₁.node k = sense₂.node k :=
          fun k hk => hkind k (mem_append_left _ hk)
        cases recursive with
        | true =>
          rw [if_pos rfl, if_pos rfl, hfixed]
          congr 1
          funext value
          exact Term.eval_congr hnamed hfixed term (name :: scope) _ _
            (haround.bindName name value) hkinds
            (fun leaf hmem => hleaf leaf (mem_append_left _ hmem))
        | false =>
          rw [if_neg Bool.false_ne_true, if_neg Bool.false_ne_true]
          exact Term.eval_congr hnamed hfixed term scope _ _ haround hkinds
            (fun leaf hmem => hleaf leaf (mem_append_left _ hmem))
      simp only [Term.eval]
      rw [hterm, hnamed]
      exact Term.eval_congr hnamed hfixed body (name :: scope) _ _ (haround.bindName name _)
        (fun k hk => hkind k (mem_append_right _ hk))
        (fun leaf hmem => hleaf leaf (mem_append_right _ hmem))

theorem Terms.eval_congr (hnamed : sense₁.named = sense₂.named)
    (hfixed : sense₁.fixed = sense₂.fixed) :
    ∀ (ts : Terms κ α) (scope : List String) (env₁ env₂ : String → Option γ),
      Around base₁ base₂ scope env₁ env₂ →
      (∀ kind ∈ ts.kinds, sense₁.node kind = sense₂.node kind) →
      (∀ leaf ∈ ts.scopes scope, ∀ env₁ env₂, Around base₁ base₂ leaf.1 env₁ env₂ →
        sense₁.leaf env₁ leaf.2 = sense₂.leaf env₂ leaf.2) →
      ts.eval sense₁ env₁ = ts.eval sense₂ env₂
  | .nil, _, _, _, _, _, _ => rfl
  | .cons head tail, scope, env₁, env₂, haround, hkind, hleaf => by
      simp only [Terms.eval]
      rw [Term.eval_congr hnamed hfixed head scope env₁ env₂ haround
          (fun k hk => hkind k (mem_append_left _ hk))
          (fun leaf hmem => hleaf leaf (mem_append_left _ hmem)),
        Terms.eval_congr hnamed hfixed tail scope env₁ env₂ haround
          (fun k hk => hkind k (mem_append_right _ hk))
          (fun leaf hmem => hleaf leaf (mem_append_right _ hmem))]

end

end Meaning

end Substrate.Lib
