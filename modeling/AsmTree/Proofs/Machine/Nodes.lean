import AsmTree.Proofs.Machine.Leaves
import AsmTree.Proofs.Tree.Subtrees

/-!
# Nodes that a machine makes

A machine makes nodes by wrapping trees. **Main statements:** what holds of every node of the trees
that come out is what holds of the new node and of every node of the trees that went in
(`everywhere_wrap`), and skipped tokens add no nodes (`everywhere_skipTokens`).
-/

namespace AsmTree

open AsmTree.Tree

namespace Machine

variable {P : Kind → List Tree → Prop} {s : Setup} {m : Machine} {t : ParseTable} {k : Kind}
  {backward : List Tree}

/-! ## Wrapped trees -/

theorem mem_wrap {tree : Tree} : tree ∈ wrap t k backward ↔
    tree = .node k (backward.reverse.dropWhile (isExtraTree t)) ∨
      tree ∈ backward.reverse.takeWhile (isExtraTree t) := by
  rw [← List.mem_reverse, reverse_wrap, List.mem_append, List.mem_singleton, or_comm]

theorem forall_mem_wrapped (t : ParseTable) (backward : List Tree) {Q : Tree → Prop} :
    (∀ tree ∈ backward, Q tree) ↔
      (∀ tree ∈ backward.reverse.takeWhile (isExtraTree t), Q tree) ∧
        ∀ tree ∈ backward.reverse.dropWhile (isExtraTree t), Q tree := by
  rw [← List.forall_mem_append, List.takeWhile_append_dropWhile]
  simp only [List.mem_reverse]

theorem isExtraTree_of_mem_takeWhile {ts : List Tree} {tree : Tree}
    (h : tree ∈ ts.takeWhile (isExtraTree t)) : isExtraTree t tree = true :=
  List.all_eq_true.1 List.all_takeWhile tree h

/-- **The nodes of wrapped trees are the new one and those of the trees that went in.** -/
theorem everywhere_wrap : (∀ tree ∈ wrap t k backward, tree.Everywhere P) ↔
    P k (backward.reverse.dropWhile (isExtraTree t)) ∧
      ∀ tree ∈ backward, tree.Everywhere P := by
  rw [forall_mem_wrapped t backward]
  simp only [mem_wrap, forall_eq_or_imp, everywhere_node]
  rw [and_assoc, and_comm (a := ∀ tree ∈ List.dropWhile _ _, _)]

/-- The nodes of a reduced frame are those that were popped, and one over them if the nonterminal is
visible. -/
theorem everywhere_reducedFrame {r : Reduction} {popped : List Frame} {base : Frame} {state : Nat} :
    (∀ tree ∈ (reducedFrame t r popped base state).backward, tree.Everywhere P) ↔
      (∀ k ∈ r.kind, P k ((Frame.joined popped).reverse.dropWhile (isExtraTree t))) ∧
        ∀ tree ∈ Frame.joined popped, tree.Everywhere P := by
  unfold reducedFrame
  cases r.kind with
  | none => simp
  | some k => simp [everywhere_wrap]

/-! ## Tokens -/

theorem exists_token_of_mem_trees {l : Lookahead} {tree : Tree} (h : tree ∈ l.trees) :
    ∃ token ∈ l.trivia ++ [l.token], tree = .token token.kind token.text := by
  rcases List.mem_append.1 h with h | h
  · obtain ⟨token, htoken, rfl⟩ := List.mem_map.1 h
    exact ⟨token, List.mem_append_left _ htoken, rfl⟩
  · exact ⟨l.token, by simp, List.mem_singleton.1 h⟩

theorem everywhere_trees (l : Lookahead) : ∀ tree ∈ l.trees, tree.Everywhere P := by
  intro tree h
  obtain ⟨token, -, rfl⟩ := exists_token_of_mem_trees h
  trivial

theorem everywhere_triviaTrees (l : Lookahead) : ∀ tree ∈ l.triviaTrees, tree.Everywhere P :=
  fun tree h => everywhere_trees l tree (List.mem_append_left _ h)

/-- **Skipped tokens add no nodes.** -/
theorem everywhere_skipTokens (n : Nat) :
    (∀ tree ∈ (skipTokens s n m backward).2, tree.Everywhere P) ↔
      ∀ tree ∈ backward, tree.Everywhere P := by
  induction n generalizing m backward with
  | zero => rfl
  | succ n ih =>
    rw [skipTokens, ih]
    have htrees := everywhere_trees (P := P) (m.ahead s 0)
    simp only [List.mem_append, List.mem_reverse, or_imp, forall_and]
    exact and_iff_right htrees

/-! ## Giving up -/

theorem joined_frames (m : Machine) : Frame.joined m.frames =
    Frame.joined m.frames.dropLast ++ (m.frames.getLastD m.top).backward := by
  conv_lhs => rw [frames_eq_dropLast m]
  rw [Frame.joined_append]
  rfl

/-- A machine that gives up keeps the bottom frame, wraps all else into a region, and puts the
extras in front of the end of the text behind it. -/
theorem children_abandon (s : Setup) (m : Machine) : ∃ n, (m.abandon s).children =
    (m.frames.getLastD m.top).backward.reverse ++
      (wrap s.table .error (skipTokens s n m (Frame.joined m.frames.dropLast)).2).reverse ++
      (m.ahead s n).triviaTrees :=
  ⟨_, rfl⟩

/-! ## Results -/

theorem everywhere_accept (h : ∀ tree ∈ Frame.joined m.frames, tree.Everywhere P) :
    ∀ tree ∈ (m.accept s).children, tree.Everywhere P := by
  have hchildren : (m.accept s).children =
      (Frame.joined m.frames).reverse ++ (m.ahead s 0).triviaTrees := rfl
  rw [hchildren, List.forall_mem_append]
  exact ⟨fun tree htree => h tree (List.mem_reverse.1 htree), everywhere_triviaTrees _⟩

theorem everywhere_abandon (h : ∀ tree ∈ Frame.joined m.frames, tree.Everywhere P)
    (herror : ∀ n, P .error
      ((skipTokens s n m (Frame.joined m.frames.dropLast)).2.reverse.dropWhile
        (isExtraTree s.table))) :
    ∀ tree ∈ (m.abandon s).children, tree.Everywhere P := by
  obtain ⟨n, hchildren⟩ := children_abandon s m
  rw [joined_frames, List.forall_mem_append] at h
  rw [hchildren]
  simp only [List.forall_mem_append, List.mem_reverse]
  refine ⟨⟨h.2, ?_⟩, everywhere_triviaTrees _⟩
  rw [everywhere_wrap, everywhere_skipTokens]
  exact ⟨herror n, h.1⟩

/-- What holds of every node of what is taken over from an earlier tree. -/
def Brings (s : Setup) (P : Kind → List Tree → Prop) : Prop :=
  ∀ splice ∈ s.splice, ∀ place tail, splice.tail? place = some tail →
    ∀ tree ∈ tail.children, tree.Everywhere P

theorem Brings.of_fresh (hs : s.splice = none) : Brings s P := by
  intro splice hsplice
  rw [hs] at hsplice
  cases hsplice

theorem Brings.everywhere (htakes : Brings s P)
    (h : ∀ tree ∈ Frame.joined m.frames, tree.Everywhere P) :
    ∀ splice ∈ s.splice, ∀ place tail, splice.tail? place = some tail →
      ∀ tree ∈ m.stackTrees ++ tail.children, tree.Everywhere P :=
  fun splice hsplice place tail htail => List.forall_mem_append.2
    ⟨fun tree htree => h tree (List.mem_reverse.1 htree), htakes splice hsplice place tail htail⟩

end Machine

end AsmTree
