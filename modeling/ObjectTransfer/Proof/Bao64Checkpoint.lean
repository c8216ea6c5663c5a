import ObjectTransfer.Proof.Bao64Producers
import ObjectTransfer.ProofStore.TreeCorrect

/-! # BLAKE3 proofs from shared subtrees

A checkpoint keeps the group chaining values of an object larger than one group in a shared tree.
Root mode is applied only at the last merge.
-/

namespace ObjectTransfer.Proof.Bao64
open Foundations Streaming ProofStore List

variable [Blake3]

structure ProofCheckpoint where
  tree : ProofTree
  length : ℕ

/-- The child values above a window, read off the retained branches. -/
def encode (tree : ProofStore.Node) (start first stop : ℕ) (output : Bytes) : Bytes :=
  if ¬ Node.Intersects ⟨start, tree.count, tree.count_pos⟩ first stop then output
  else
    match tree with
    | .leaf _ => output
    | .branch _ left right =>
      encode right (start + left.count) first stop
        (encode left start first stop (output ++ left.hash.toList ++ right.hash.toList))

namespace ProofCheckpoint

def new (length : ℕ) (leaves : List Digest) : Except (Abort Error) ProofCheckpoint := do
  let count := groupCount length
  rejectIf (count < 2 ∨ count ≠ leaves.length) (.error .outOfBounds)
  return ⟨.new Blake3.mergeSubtreesNonRoot leaves, length⟩

def updated (checkpoint : ProofCheckpoint) (length first : ℕ) (leaves : List Digest) :
    Except (Abort Error) ProofCheckpoint := do
  let count := groupCount length
  rejectIf (count < 2) (.error .outOfBounds)
  let tree ← (checkpoint.tree.updated Blake3.mergeSubtreesNonRoot first leaves count).mapError
    (Abort.map fun _ => .outOfBounds)
  return ⟨tree, length⟩

def root (checkpoint : ProofCheckpoint) : Except (Abort Error) Digest := do
  let node ← okOr checkpoint.tree.root .panic
  let children ← okOr node.children .panic
  return Blake3.mergeSubtreesRoot children.1.hash children.2.hash

def prove (checkpoint : ProofCheckpoint) (offset length : ℕ) : Except (Abort Error) RangeCover := do
  let geometry ← RangeGeometry.of groupSize checkpoint.length offset length
  let node ← okOr checkpoint.tree.root .panic
  let proof := encode node 0 geometry.first geometry.stop []
  return ⟨geometry.coveredOffset, geometry.coveredEnd - geometry.coveredOffset, proof⟩

/-- Whether a group is the one kept at `index`. -/
def holds (checkpoint : ProofCheckpoint) (index : ℕ) (bytes : Bytes) : Bool :=
  match checkpoint.tree.subtree index 1 with
  | none => false
  | some expected =>
    match groupCvsAt (index * groupSize) bytes checkpoint.length with
    | .ok leaves => decide (leaves = [expected])
    | .error _ => false

structure Keeps (D : Bytes) (checkpoint : ProofCheckpoint) : Prop where
  length : checkpoint.length = D.length
  multi : groupSize < D.length
  tree : checkpoint.tree.Holds Blake3.mergeSubtreesNonRoot (objectCvs D)

end ProofCheckpoint

theorem count_ofTree_tree (f : ℕ → Digest) (node : Node) :
    (ProofStore.Node.ofTree Blake3.mergeSubtreesNonRoot f node.tree).count = node.count := by
  rw [ProofStore.Node.count_ofTree, Node.leaves_tree, length_range']

theorem encode_join (left right : ProofStore.Node) (start first stop : ℕ) (output : Bytes) :
    encode (.join Blake3.mergeSubtreesNonRoot left right) start first stop output =
      if start < stop ∧ first < saturatingAdd start (left.count + right.count) then
        encode right (start + left.count) first stop
          (encode left start first stop (output ++ left.hash.toList ++ right.hash.toList))
      else output := by
  rw [ProofStore.Node.join, encode, ite_not]
  rfl

/-- Walking the branches emits the range proof of the tree's shape. -/
theorem encode_eq {n : ℕ} (hn : n ≤ u64Max) (f : ℕ → Digest) {first stop : ℕ} (hwin : first < stop)
    {node : Node} (hnode : node.Within n) (output : Bytes) :
    encode (.ofTree Blake3.mergeSubtreesNonRoot f node.tree) node.start first stop output =
      output ++ writeAll writePair
        (node.tree.proof (window first stop) f Blake3.mergeSubtreesNonRoot) := by
  induction node, hnode using Node.within_induction hn generalizing output with
  | one node hnode h =>
    rw [Node.tree_of_one h]
    simp [HashTree.proof, ProofStore.Node.ofTree, encode]
  | split node hnode h ihl ihr =>
    have htree := Node.tree_split hn hnode h
    have hiff : node.start < stop ∧ first < saturatingAdd node.start node.count ↔
        node.tree.selected (window first stop) = true := Node.intersects_iff hn hnode hwin
    obtain ⟨-, -, hstart⟩ := Node.split_within hn hnode h
    have hcounts : (node.split h).1.count + (node.split h).2.count = node.count :=
      Nat.add_sub_cancel' (leftCount_lt (by have := node.pos; omega)).le
    rw [htree, ProofStore.Node.ofTree, encode_join, count_ofTree_tree, count_ofTree_tree, hcounts]
    by_cases hsel : node.start < stop ∧ first < saturatingAdd node.start node.count
    · have hleft : (node.split h).1.start = node.start := rfl
      have hright : node.start + (node.split h).1.count = (node.split h).2.start := hstart.symm
      rw [if_pos hsel, hright, ← hleft, ihl, ihr]
      rw [hiff, htree] at hsel
      rw [HashTree.proof, if_pos hsel]
      simp [writePair]
    · rw [if_neg hsel]
      rw [hiff, Bool.not_eq_true] at hsel
      rw [← htree, HashTree.proof_eq_nil hsel]
      simp

variable {bytes : Bytes}

namespace ProofCheckpoint

variable {D : Bytes} {checkpoint : ProofCheckpoint} (h : checkpoint.Keeps D)
include h

theorem Keeps.ne_nil : D ≠ [] := by
  rintro rfl
  exact absurd h.multi (Nat.not_lt_zero _)

theorem Keeps.root_node : checkpoint.tree.root =
    some (.ofTree Blake3.mergeSubtreesNonRoot (groupValue D) (rootNode D.length).tree) := by
  rw [h.tree, objectCvs, range_eq_range',
    ProofStore.Node.build_range' _ _ (groupCount_pos D.length)]
  rfl

variable (hlen : D.length ≤ isizeMax)
include hlen

theorem Keeps.root_eq (hsplit : SplitRoot) : checkpoint.root = .ok (Blake3.hash D) := by
  have hmulti : ¬ D.length ≤ groupSize := not_le.mpr h.multi
  rw [root, h.root_node, Node.tree_split (groupCount_le_u64Max hlen) (rootNode_within D.length)
    (rootNode_count_ne_one hmulti), hash_eq hlen hmulti hsplit]
  simp only [okOr_some, ok_bind, ProofStore.Node.ofTree, ProofStore.Node.join,
    ProofStore.Node.children, ProofStore.Node.hash_ofTree]
  rfl

theorem Keeps.prove_eq (offset length : ℕ) :
    checkpoint.prove offset length = (Bao64.prove D offset length).map RangeProof.cover := by
  rw [prove, h.length, h.root_node]
  refine (proves hlen).agrees (fun first stop => .ok (encode _ 0 first stop [])) ?_ offset
    length
  intro offset length cover
  exact congrArg Except.ok (encode_eq (groupCount_le_u64Max hlen) (groupValue D)
    (cover.units_lt groupSize_pos) (rootNode_within D.length) [])

/-- A group is held exactly where the object has it, unless another one hashes alike. -/
theorem Keeps.holds_iff {index : ℕ} (hinj : index < divCeil D.length groupSize →
      Blake3.chainingValue (groupSize * index) bytes = groupValue D index →
      bytes = chunkAt groupSize D index) :
    checkpoint.holds index bytes = true ↔
      index < divCeil D.length groupSize ∧ bytes = chunkAt groupSize D index := by
  rw [holds, h.tree.subtree_one, objectCvs, groupCount_eq h.ne_nil, h.length, mul_comm index]
  by_cases hi : index < divCeil D.length groupSize
  swap
  · simp [hi]
  have hleaf := (groupCvsAt_eq_ok (le_u64Max_of_le_isizeMax hlen)).trans
    (Cover.leaf_iff Blake3.chainingValue groupSize_pos hi (hinj hi))
  rw [getElem?_map, getElem?_range hi, Option.map_some]
  simp only [hi, true_and, ← hleaf]
  cases groupCvsAt (groupSize * index) bytes D.length with
  | error => simp
  | ok =>
    simp only [decide_eq_true_eq, Except.ok.injEq]
    rfl

end ProofCheckpoint

namespace ProofCheckpoint

theorem new_keeps {D : Bytes} (hmulti : groupSize < D.length) :
    ∃ checkpoint, new D.length (objectCvs D) = .ok checkpoint ∧ checkpoint.Keeps D := by
  have hne : D ≠ [] := by
    rintro rfl
    exact absurd hmulti (Nat.not_lt_zero _)
  have hcount : 2 ≤ groupCount D.length := by
    rw [groupCount_eq hne]
    exact two_le_divCeil groupSize_pos hmulti
  have hcond : ¬ (groupCount D.length < 2 ∨ groupCount D.length ≠ (objectCvs D).length) := by
    rw [objectCvs, length_map, length_range]
    omega
  refine ⟨⟨.new Blake3.mergeSubtreesNonRoot (objectCvs D), D.length⟩, ?_, rfl, hmulti, rfl⟩
  rw [new, rejectIf_neg hcond]
  rfl

/-- An edit that fills the groups it touches takes the checkpoint to the edited object. -/
theorem Keeps.updated_keeps {D : Bytes} {checkpoint : ProofCheckpoint} (h : checkpoint.Keeps D)
    (fill : UInt8) {offset length : ℕ}
    (hsettles : Settles groupSize D.length length offset bytes.length)
    (hmulti : groupSize < length) (hlen : length ≤ isizeMax) :
    ∃ next, checkpoint.updated length (offset / groupSize)
        ((List.range (divCeil bytes.length groupSize)).map fun k => Blake3.chainingValue
          (offset + groupSize * k) (chunkAt groupSize bytes k)) = .ok next ∧
      next.Keeps (edited fill D offset bytes length) := by
  have hne := h.ne_nil
  have hlength := edited_length fill D hsettles.inside
  have hcount : groupCount length = divCeil length groupSize := by
    rw [groupCount, max_eq_left (by omega)]
  have htwo : 2 ≤ groupCount length := by
    rw [hcount]
    exact two_le_divCeil groupSize_pos hmulti
  have hstart := hsettles.start_eq
  have htree := h.tree
  rw [objectCvs, groupCount_eq hne] at htree
  obtain ⟨tree, hupdated, hholds⟩ := ProofTree.Holds.edited groupSize_pos htree hne fill hsettles
    (by omega) (le_u64Max_of_le_isizeMax hlen)
  simp only [mul_add, hstart] at hupdated
  refine ⟨⟨tree, length⟩, ?_, hlength.symm, by rwa [hlength], ?_⟩
  · rw [updated, rejectIf_neg (by omega), ok_bind, hcount, hupdated]
    rfl
  · rw [objectCvs, hlength, hcount]
    exact hholds

end ProofCheckpoint

end ObjectTransfer.Proof.Bao64
