import ObjectTransfer.Foundations.Outcome
import ObjectTransfer.Foundations.Words

/-! # Host-provided storage for proof nodes

Nodes are appended one by one and read back by ordinal. The host supplies the store; what the
development assumes of one that works is that it holds the nodes written to it, in order.
-/

namespace ObjectTransfer.ProofStore
open Foundations

inductive StoreError where
  | capacity
  | corrupt
  | unavailable
  deriving DecidableEq, Repr

/-- The operations of a node store. A failed append may have changed it. -/
class NodeStorage (σ : Type) where
  len : σ → Except StoreError ℕ
  append : σ → Digest → σ × Except StoreError Unit
  read : σ → ℕ → Except StoreError Digest

def NodeStorage.isEmpty {σ : Type} [NodeStorage σ] (storage : σ) : Except StoreError Bool :=
  (len storage).map fun length => decide (length = 0)

/-- A store that returns what was written to it. -/
class LawfulNodeStorage (σ : Type) [NodeStorage σ] where
  contents : σ → List Digest
  len_eq (storage : σ) : NodeStorage.len storage = .ok (contents storage).length
  append_ok (storage : σ) (node : Digest) : (NodeStorage.append storage node).2 = .ok ()
  append_contents (storage : σ) (node : Digest) :
    contents (NodeStorage.append storage node).1 = contents storage ++ [node]
  read_eq (storage : σ) (ordinal : ℕ) (node : Digest)
    (h : (contents storage)[ordinal]? = some node) : NodeStorage.read storage ordinal = .ok node

structure MemoryNodeStorage where
  nodes : List Digest := []

instance : NodeStorage MemoryNodeStorage where
  len storage := .ok storage.nodes.length
  append storage node := (⟨storage.nodes ++ [node]⟩, .ok ())
  read storage ordinal := do
    rejectIf (storage.nodes.length ≤ ordinal) .corrupt
    okOr storage.nodes[ordinal]? .corrupt

instance : LawfulNodeStorage MemoryNodeStorage where
  contents storage := storage.nodes
  len_eq _ := rfl
  append_ok _ _ := rfl
  append_contents _ _ := rfl
  read_eq storage ordinal node h := by
    obtain ⟨hlt, -⟩ := List.getElem?_eq_some_iff.mp h
    simp only [NodeStorage.read, h, okOr_some]
    rw [rejectIf_neg (by omega), ok_bind]

end ObjectTransfer.ProofStore
