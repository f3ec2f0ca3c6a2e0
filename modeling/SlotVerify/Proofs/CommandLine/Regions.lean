import SlotVerify.CommandLine.Layout
import SlotVerify.Proofs.Verity.Finalizing
import SlotVerify.Verification.Error
/-
  The order of an image's regions.

  The data comes first, then the hash tree, then the error correction; a region may be absent
  (`WriteVerityArguments.InOrder`).  Regions in this order have their places in every image that is
  long enough for the metadata (`InOrder.placed`), the metadata is apart from the data
  (`InOrder.data_apart`), and in front of the metadata lies all that the tree covers
  (`InOrder.dataEnd_eq`).
-/

namespace SlotVerify.CommandLine

open Verification

namespace WriteVerityArguments

variable {a : WriteVerityArguments} {size : Nat}

/-- The regions of an image by their offsets and sizes: the data, the tree and the error
    correction. -/
def regions (a : WriteVerityArguments) : List (Nat × Nat) :=
  [(0, a.dataSize), (a.hashTreeOffset, a.hashTreeSize), (a.fecOffset, a.fecSize)]

/-- The regions of non-zero size follow each other, first the data, then the tree, then the error
    correction; a region of size zero has the offset zero. -/
structure InOrder (a : WriteVerityArguments) : Prop where
  follows : (a.regions.filter (·.2 ≠ 0)).Pairwise fun r s => r.1 + r.2 ≤ s.1
  absent : ∀ r ∈ a.regions, r.2 = 0 → r.1 = 0

/-- What the order says of each two regions. -/
theorem InOrder.pairs (h : a.InOrder) :
    (a.dataSize ≠ 0 → a.hashTreeSize ≠ 0 → a.dataSize ≤ a.hashTreeOffset) ∧
      (a.dataSize ≠ 0 → a.fecSize ≠ 0 → a.dataSize ≤ a.fecOffset) ∧
      (a.hashTreeSize ≠ 0 → a.fecSize ≠ 0 → a.hashTreeOffset + a.hashTreeSize ≤ a.fecOffset) := by
  have hpairs := List.pairwise_filter.mp h.follows
  unfold regions at hpairs
  simp only [List.pairwise_cons, List.mem_cons, List.not_mem_nil, or_false, forall_eq_or_imp,
    forall_eq, decide_eq_true_eq, Nat.zero_add, List.Pairwise.nil, and_true] at hpairs
  exact ⟨fun hdata htree => hpairs.1.1 hdata htree, fun hdata hfec => hpairs.1.2 hdata hfec,
    fun htree hfec => hpairs.2.1 htree hfec⟩

theorem InOrder.data_le_tree (h : a.InOrder) (htree : a.hashTreeSize ≠ 0) :
    a.dataSize ≤ a.hashTreeOffset := by
  by_cases hdata : a.dataSize = 0
  · exact hdata ▸ Nat.zero_le _
  · exact h.pairs.1 hdata htree

theorem InOrder.data_le_fec (h : a.InOrder) (hfec : a.fecSize ≠ 0) : a.dataSize ≤ a.fecOffset := by
  by_cases hdata : a.dataSize = 0
  · exact hdata ▸ Nat.zero_le _
  · exact h.pairs.2.1 hdata hfec

theorem InOrder.tree_absent (h : a.InOrder) (hnone : a.hashTreeSize = 0) : a.hashTreeOffset = 0 :=
  h.absent (a.hashTreeOffset, a.hashTreeSize) (by simp [regions]) hnone

theorem InOrder.fec_absent (h : a.InOrder) (hnone : a.fecSize = 0) : a.fecOffset = 0 :=
  h.absent (a.fecOffset, a.fecSize) (by simp [regions]) hnone

/-- What error correction covers lies in front of its bytes. -/
theorem InOrder.covered_le_fec (h : a.InOrder) (hfec : a.fecSize ≠ 0) :
    a.fecDataSize ≤ a.fecOffset := by
  unfold fecDataSize
  rw [if_neg hfec]
  split
  · exact h.data_le_fec hfec
  · rename_i htree
    exact h.pairs.2.2 htree hfec

/-- No metadata lies in the data. -/
theorem InOrder.data_apart (h : a.InOrder) {x : Nat} (hx : x < a.dataSize) :
    ¬ a.layout.Metadata x := by
  rintro (⟨hlow, hhigh⟩ | ⟨hlow, hhigh⟩)
  · change a.hashTreeOffset ≤ x at hlow
    change x < a.hashTreeOffset + a.hashTreeSize at hhigh
    have := h.data_le_tree (by omega)
    omega
  · change a.fecOffset ≤ x at hlow
    change x < a.fecOffset + a.fecSize at hhigh
    have := h.data_le_fec (by omega)
    omega

/-- The regions have their places in an image that is long enough for the metadata. -/
theorem InOrder.placed (h : a.InOrder) (hend : a.metadataEnd ≤ size) : a.layout.Placed size := by
  unfold metadataEnd at hend
  refine ⟨fun _ => ?_, fun hfec => ?_, fun _ => ?_, ?_, ?_⟩
  · show a.hashTreeOffset + a.hashTreeSize ≤ size
    omega
  · show 0 + a.fecDataSize ≤ size
    have := h.covered_le_fec hfec
    omega
  · show a.fecOffset + a.fecSize ≤ size
    omega
  · rintro x ⟨hlow, hhigh⟩ ⟨hlow', hhigh'⟩
    change a.fecOffset ≤ x at hlow
    change x < a.fecOffset + a.fecSize at hhigh
    change a.hashTreeOffset ≤ x at hlow'
    change x < a.hashTreeOffset + a.hashTreeSize at hhigh'
    have := h.pairs.2.2 (by omega) (by omega)
    omega
  · rintro x ⟨hlow, hhigh⟩ ⟨-, hhigh'⟩
    change a.fecOffset ≤ x at hlow
    change x < a.fecOffset + a.fecSize at hhigh
    change x < 0 + a.fecDataSize at hhigh'
    have := h.covered_le_fec (by omega)
    omega

/-- The data of an image with a tree lies inside it. -/
theorem InOrder.data_le_size (h : a.InOrder) (hend : a.metadataEnd ≤ size)
    (htree : a.hashTreeSize ≠ 0) : a.dataSize ≤ size := by
  have := h.data_le_tree htree
  unfold metadataEnd at hend
  omega

/-- A verification feeds the writer up to the first region of metadata, which is at least what the
    tree covers. -/
theorem InOrder.dataEnd_eq (h : a.InOrder) (hend : a.metadataEnd ≤ size) :
    ∃ stop, dataEnd .target a.hashTreeOffset a.fecOffset size = .ok stop ∧ stop ≤ size ∧
      (a.hashTreeSize ≠ 0 → a.dataSize ≤ stop) := by
  have hstart : metadataStart a.hashTreeOffset a.fecOffset size ≤ size ∧
      (a.hashTreeSize ≠ 0 → a.dataSize ≤ metadataStart a.hashTreeOffset a.fecOffset size) := by
    unfold metadataEnd at hend
    unfold metadataStart
    split
    · exact ⟨by omega, h.data_le_tree⟩
    · rename_i hzero
      -- a tree at the beginning of the image is one over no data
      have hnone : a.hashTreeSize ≠ 0 → a.dataSize = 0 := by
        intro htree
        have := h.data_le_tree htree
        omega
      split
      · exact ⟨by omega, fun htree => hnone htree ▸ Nat.zero_le _⟩
      · exact ⟨Nat.le_refl _, fun htree => hnone htree ▸ Nat.zero_le _⟩
  refine ⟨_, ?_, hstart⟩
  unfold dataEnd
  rw [if_neg]
  · dsimp only
    rw [if_pos hstart.1]
  · rintro ⟨htree, hfec, hlt⟩
    have := h.pairs.2.2 (fun hnone => htree (h.tree_absent hnone))
      (fun hnone => hfec (h.fec_absent hnone))
    omega

end WriteVerityArguments

end SlotVerify.CommandLine
