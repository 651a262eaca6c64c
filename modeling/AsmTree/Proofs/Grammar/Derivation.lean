import AsmTree.Grammar.Basic
import AsmTree.Tree.Basic

/-!
# Derivations

A derivation of a symbol is a tree of productions. Its skeleton is what a tree of the grammar shows
of it: a visible nonterminal is a node over the skeletons of its children, and the children of a
hidden one stand in its place. `Tree.shape` is the same of a parsed tree: without extras, and with
recovered regions as terminals.
-/

namespace AsmTree

/-- A tree without texts. -/
inductive Shape where
  | leaf (kind : Kind)
  | node (kind : Kind) (children : List Shape)
deriving Repr, Inhabited

/-! ## Skeletons of derivations -/

mutual

/-- The ways in which a symbol can be formed. -/
inductive Derivation (g : Grammar) : Symbol → Type where
  | leaf (k : Kind) : Derivation g (.terminal k)
  | node (p : Production) (mem : p ∈ g.productions) (children : Derivations g p.rhs) :
    Derivation g (.nonterminal p.lhs)

/-- The ways in which several symbols can be formed. -/
inductive Derivations (g : Grammar) : List Symbol → Type where
  | nil : Derivations g []
  | cons {s : Symbol} {ss : List Symbol} (first : Derivation g s) (rest : Derivations g ss) :
    Derivations g (s :: ss)

end

variable {g : Grammar} {s : Symbol} {ss : List Symbol}

mutual

/-- What a tree shows of a derivation. -/
def Derivation.skeleton {s : Symbol} : Derivation g s → List Shape
  | .leaf k => [.leaf k]
  | .node p _ children =>
    match g.kindOf? p.lhs with
    | some k => [.node k (Derivations.skeleton children)]
    | none => Derivations.skeleton children

def Derivations.skeleton {ss : List Symbol} : Derivations g ss → List Shape
  | .nil => []
  | .cons first rest => first.skeleton ++ Derivations.skeleton rest

end

/-- Adds a derivation of one more symbol. -/
def Derivations.snoc : {ss : List Symbol} → Derivations g ss → Derivation g s →
    Derivations g (ss ++ [s])
  | [], .nil, d => .cons d .nil
  | _ :: _, .cons first rest, d => .cons first (rest.snoc d)

@[simp] theorem Derivations.skeleton_snoc (ds : Derivations g ss) (d : Derivation g s) :
    (ds.snoc d).skeleton = ds.skeleton ++ d.skeleton := by
  induction ss with
  | nil =>
    cases ds
    simp [snoc, skeleton]
  | cons _ ss ih =>
    cases ds with
    | cons first rest => simp [snoc, skeleton, ih]

/-! ## Shapes of trees -/

namespace Tree

mutual

/-- The tree without extras and texts. A recovered region counts as a terminal, whatever it
holds. -/
def shape (isExtra : Kind → Bool) : Tree → List Shape
  | token k _ => if isExtra k then [] else [.leaf k]
  | node k cs => if k = .error then [.leaf .error] else [.node k (shapeAll isExtra cs)]

def shapeAll (isExtra : Kind → Bool) : List Tree → List Shape
  | [] => []
  | t :: ts => shape isExtra t ++ shapeAll isExtra ts

end

variable {isExtra : Kind → Bool}

@[simp] theorem shapeAll_nil : shapeAll isExtra [] = [] := rfl

@[simp] theorem shapeAll_cons (t : Tree) (ts : List Tree) :
    shapeAll isExtra (t :: ts) = shape isExtra t ++ shapeAll isExtra ts := rfl

@[simp] theorem shapeAll_append (a b : List Tree) :
    shapeAll isExtra (a ++ b) = shapeAll isExtra a ++ shapeAll isExtra b := by
  induction a with
  | nil => rfl
  | cons t a ih => simp [ih]

theorem shapeAll_eq_nil {ts : List Tree} (h : ∀ t ∈ ts, t.shape isExtra = []) :
    shapeAll isExtra ts = [] := by
  induction ts with
  | nil => rfl
  | cons t ts ih => simp [h t, ih fun x hx => h x (List.mem_cons_of_mem _ hx)]

end Tree

end AsmTree
