import ObjectTransfer.Proof.Geometry

/-! # Retained proof nodes

A range can be proved without the object's bytes, from nodes kept in memory or in a store. In a
store each layer of the tree is a stretch of consecutive ordinals.
-/

namespace ObjectTransfer.Proof
open Foundations ProofStore List

structure RangeCover where
  coveredOffset : ℕ
  coveredLength : ℕ
  proof : Bytes
  deriving DecidableEq, Repr

def RangeProof.cover (proof : RangeProof) : RangeCover :=
  ⟨proof.coveredOffset, proof.data.length, proof.proof⟩

/-- A producer that has the proof bytes of every cover answers every request as the prover does. -/
theorem Proves.agrees {unit : ℕ} {D : Bytes} {prove : ℕ → ℕ → Except (Abort Error) RangeProof}
    {proof : ℕ → ℕ → Bytes} (h : Proves unit D prove proof)
    (encode : ℕ → ℕ → Except (Abort Error) Bytes)
    (hencode : ∀ offset length, Cover unit D.length offset length →
      encode (offset / unit) (divCeil (offset + length) unit) =
        .ok (proof (offset / unit) (divCeil (offset + length) unit))) (offset length : ℕ) :
    (do let geometry ← RangeGeometry.of unit D.length offset length
        let proof ← encode geometry.first geometry.stop
        return (⟨geometry.coveredOffset, geometry.coveredEnd - geometry.coveredOffset, proof⟩ :
          RangeCover)) = (prove offset length).map RangeProof.cover := by
  cases hgeometry : RangeGeometry.of unit D.length offset length with
  | error =>
    obtain ⟨rest, hreads⟩ := h.reads
    simp only [hreads, hgeometry, error_bind, Except.map]
  | ok =>
    obtain ⟨hpos, hin⟩ := RangeGeometry.of_ok hgeometry
    obtain ⟨offset', data, cover, -, hof, hprove⟩ := h.widens hpos hin
    rw [hof, RangeGeometry.of_eq_of_cover h.unit_pos h.fits cover] at hgeometry
    obtain rfl := Except.ok.inj hgeometry
    simp only [ok_bind, hencode _ _ cover, hprove, Nat.add_sub_cancel_left]
    rfl

/-- The failure of a store, as one of the proof. -/
def fromStore {α : Type} : Except StoreError α → Except (Abort Error) α :=
  Except.mapError fun error => .error (.storage error)

@[simp] theorem fromStore_ok {α : Type} (a : α) : fromStore (.ok a) = .ok a := rfl

structure StoredLayer where
  base : ℕ
  count : ℕ
  deriving DecidableEq, Repr

def maxStoredLevels : ℕ := 49

section Store

variable {σ : Type} [NodeStorage σ]

def readStoredNode (storage : σ) (layer : StoredLayer) (index : ℕ) :
    Except (Abort Error) Digest := do
  rejectIf (index ≥ layer.count) (.error (.storage .corrupt))
  let ordinal ← okOr (checkedAdd layer.base index) (.error (.storage .capacity))
  fromStore (NodeStorage.read storage ordinal)

def appendNode (storage : σ) (node : Digest) : Except (Abort Error) σ :=
  fromStore (settled (NodeStorage.append storage node))

end Store

/-- The nodes of a layer are there, and have the values of `value`. -/
def Retains (contents : List Digest) (layer : StoredLayer) (value : ℕ → Digest) : Prop :=
  ∀ index < layer.count, contents[layer.base + index]? = some (value index)

variable {layer : StoredLayer} {value : ℕ → Digest}

theorem Retains.append {contents : List Digest} (h : Retains contents layer value)
    (more : List Digest) : Retains (contents ++ more) layer value := by
  intro index hindex
  have hat := h index hindex
  rw [getElem?_append_left (List.getElem?_eq_some_iff.mp hat).1, hat]

/-- The layers kept so far: layer `k` has `width k` nodes with the values of `value k`, and the last
one ends the store. -/
structure Leveled (value : ℕ → ℕ → Digest) (width : ℕ → ℕ) (nodes : List Digest)
    (layers : List StoredLayer) (last : StoredLayer) : Prop where
  held : ∀ k < layers.length, ∃ layer, layers[k]? = some layer ∧ layer.count = width k ∧
    Retains nodes layer (value k)
  last_eq : layers.getLast? = some last
  ends : nodes.length = last.base + last.count
  room : nodes.length ≤ width 0 * layers.length

namespace Leveled

variable {value : ℕ → ℕ → Digest} {width : ℕ → ℕ} {nodes : List Digest}
  {layers : List StoredLayer} {last : StoredLayer}

theorem base (value : ℕ → ℕ → Digest) (width : ℕ → ℕ) :
    Leveled value width ((List.range (width 0)).map (value 0)) [⟨0, width 0⟩] ⟨0, width 0⟩ := by
  refine ⟨fun k hk => ?_, rfl, by simp, by simp⟩
  obtain rfl : k = 0 := by simpa using hk
  refine ⟨⟨0, width 0⟩, rfl, rfl, fun index hindex => ?_⟩
  rw [zero_add, getElem?_map, getElem?_range hindex]
  rfl

section

variable (h : Leveled value width nodes layers last)
include h

theorem length_pos : 0 < layers.length := by
  rw [length_pos_iff]
  rintro rfl
  simpa using h.last_eq

/-- The last layer, as a layer like the others. -/
theorem last_held :
    last.count = width (layers.length - 1) ∧ Retains nodes last (value (layers.length - 1)) := by
  have hpos := h.length_pos
  obtain ⟨layer, hat, hcount, hretains⟩ := h.held (layers.length - 1) (by omega)
  have hlast := h.last_eq
  rw [getLast?_eq_getElem?, hat, Option.some.injEq] at hlast
  rw [← hlast]
  exact ⟨hcount, hretains⟩

/-- One more layer, once its nodes are in the store. -/
theorem push (hwidth : width layers.length ≤ width 0) :
    Leveled value width
      (nodes ++ (List.range (width layers.length)).map (value layers.length))
      (layers ++ [⟨nodes.length, width layers.length⟩]) ⟨nodes.length, width layers.length⟩ := by
  have hroom := h.room
  refine ⟨fun k hk => ?_, by simp, by simp, ?_⟩
  · rcases lt_or_ge k layers.length with hlt | hge
    · obtain ⟨layer, hat, hlayer, hretains⟩ := h.held k hlt
      exact ⟨layer, by rw [getElem?_append_left hlt, hat], hlayer, hretains.append _⟩
    · obtain rfl : k = layers.length := by
        rw [length_append, length_singleton] at hk
        omega
      refine ⟨_, getElem?_concat_length, rfl, fun index hindex => ?_⟩
      rw [getElem?_append_right (Nat.le_add_right _ _), Nat.add_sub_cancel_left,
        getElem?_map, getElem?_range hindex]
      rfl
  · simp only [length_append, length_map, length_range, length_singleton, Nat.mul_succ]
    omega

end

end Leveled

section Lawful

open LawfulNodeStorage

variable {σ : Type} [NodeStorage σ] [LawfulNodeStorage σ] {storage : σ}

theorem readStoredNode_eq (h : Retains (contents storage) layer value)
    {index : ℕ} (hindex : index < layer.count) (hfit : (contents storage).length ≤ u64Max) :
    readStoredNode storage layer index = .ok (value index) := by
  have hat := h index hindex
  have hlt := (List.getElem?_eq_some_iff.mp hat).1
  rw [readStoredNode, rejectIf_neg (by omega), checkedAdd_of_le (by omega), okOr_some]
  simp only [ok_bind, read_eq storage _ _ hat, fromStore_ok]

theorem isEmpty_eq (h : contents storage = []) : NodeStorage.isEmpty storage = .ok true := by
  rw [NodeStorage.isEmpty, len_eq, h]
  rfl

theorem append_eq (storage : σ) (node : Digest) :
    ∃ storage', NodeStorage.append storage node = (storage', .ok ()) ∧
      contents storage' = contents storage ++ [node] :=
  ⟨_, Prod.ext rfl (append_ok storage node), append_contents storage node⟩

theorem appendNode_eq (storage : σ) (node : Digest) :
    ∃ storage', appendNode storage node = .ok storage' ∧
      contents storage' = contents storage ++ [node] := by
  obtain ⟨storage', happend, hcontents⟩ := append_eq storage node
  refine ⟨storage', ?_, hcontents⟩
  rw [appendNode, happend]
  rfl

theorem foldlM_append (step : σ → ℕ → Except (Abort Error) σ) (node : ℕ → Digest) (count : ℕ)
    (storage : σ)
    (hstep : ∀ (current : σ) (index : ℕ), index < count →
      contents current = contents storage ++ (List.range index).map node →
      step current index = appendNode current (node index)) :
    ∃ storage', (List.range count).foldlM step storage = .ok storage' ∧
      contents storage' = contents storage ++ (List.range count).map node := by
  induction count with
  | zero => exact ⟨storage, rfl, by simp⟩
  | succ count ih =>
    obtain ⟨current, hfold, hcurrent⟩ := ih fun current index hindex =>
      hstep current index (by omega)
    obtain ⟨storage', happend, hcontents⟩ := appendNode_eq current (node count)
    refine ⟨storage', ?_, ?_⟩
    · rw [range_succ, List.foldlM_append, hfold, ok_bind, foldlM_cons,
        hstep current count (by omega) hcurrent, happend, ok_bind]
      rfl
    · rw [hcontents, hcurrent, range_succ, map_append, append_assoc]
      rfl

theorem Leveled.append_layer {value : ℕ → ℕ → Digest} {width : ℕ → ℕ}
    {layers : List StoredLayer} {last : StoredLayer}
    (h : Leveled value width (contents storage) layers last) (hlt : layers.length < maxStoredLevels)
    (hbase : width 0 ≤ 2 ^ 48) (hle : width layers.length ≤ width 0)
    {step : σ → ℕ → Except (Abort Error) σ}
    (hstep : ∀ (current : σ) (index : ℕ), index < width layers.length →
      Retains (contents current) last (value (layers.length - 1)) →
      (contents current).length ≤ u64Max →
      step current index = appendNode current (value layers.length index)) :
    ∃ storage', (List.range (width layers.length)).foldlM step storage = .ok storage' ∧
      (contents storage').length = (contents storage).length + width layers.length ∧
      (contents storage').length ≤ u64Max ∧
      Leveled value width (contents storage')
        (layers ++ [⟨(contents storage).length, width layers.length⟩])
        ⟨(contents storage).length, width layers.length⟩ := by
  have hfit : (contents storage).length + width layers.length ≤ u64Max := by
    have hroom := h.room
    have hmul : width 0 * layers.length ≤ 2 ^ 48 * maxStoredLevels := Nat.mul_le_mul hbase hlt.le
    unfold maxStoredLevels at hmul
    unfold u64Max
    omega
  obtain ⟨storage', hfold, hcontents⟩ := foldlM_append step (value layers.length)
    (width layers.length) storage fun current index hindex hcurrent => by
      refine hstep current index hindex (hcurrent ▸ h.last_held.2.append _) ?_
      rw [hcurrent, length_append, length_map, length_range]
      omega
  have hlength : (contents storage').length = (contents storage).length + width layers.length := by
    simp [hcontents]
  refine ⟨storage', hfold, hlength, hlength ▸ hfit, ?_⟩
  rw [hcontents]
  exact h.push hle

end Lawful

end ObjectTransfer.Proof
