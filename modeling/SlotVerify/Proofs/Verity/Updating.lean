import SlotVerify.Proofs.HashTree.Levels
import SlotVerify.Proofs.Verity.Finalizing
/-
  The protocol of updates.

  A partition's data is offered in any calls.  What is taken of them is told from the calls alone
  (`takenOf`): each call that begins where the data taken so far ends, and whose own end is an
  offset, adds its data; every other call adds nothing.

  1. One call: the writer takes it exactly if it adds to the data taken, and otherwise stays as it
     is (`Writer.Streams.update_eq`).  The invariant behind it is that the tree's builder has been
     fed the part of the data taken that lies in the tree's region, so that it has room for the part
     of the next call that does.

  2. Any number of calls, by induction: the writer has taken what is told from the calls
     (`Writer.Streams.offer`).

  3. Finalizing then depends on the data taken alone, and leaves no partition behind, as does a
     layout that is not accepted (`Writer.Uninitialized`).

  Main result: `Writer.update_protocol`.
-/

namespace SlotVerify.Verity

open Fec Device

/-- The data taken after one more call. -/
def takeNext (contents : ByteArray) (call : Nat × ByteArray) : ByteArray :=
  if call.1 = contents.size ∧ call.1 + call.2.size < wordLimit then contents ++ call.2 else contents

/-- The data taken of a sequence of calls. -/
def takenOf (calls : List (Nat × ByteArray)) : ByteArray :=
  calls.foldl takeNext ByteArray.empty

theorem takenOf_concat (calls : List (Nat × ByteArray)) (call : Nat × ByteArray) :
    takenOf (calls ++ [call]) = takeNext (takenOf calls) call := by
  unfold takenOf
  rw [List.foldl_append]
  rfl

/-- The tree of a layout over some data, level by level. -/
def Layout.TreeOver (l : Layout) (data : ByteArray) (tree : HashTree.Tree) : Prop :=
  ∃ a depth level, Digest.Algorithm.ofName? l.hashTreeAlgorithm = .ok a ∧
    tree.MadeOf (fun block => a.digest (l.hashTreeSalt ++ block)) a.digestSize
      (HashTree.slotFor a.digestSize) l.blockSize data depth level

namespace Writer

variable {w : Writer} {l : Layout} {contents : ByteArray}

/-! ## No partition -/

/-- Between partitions nothing is taken and nothing is handed out. -/
structure Uninitialized (w : Writer) : Prop where
  session : w.session = none
  update : ∀ offset data, w.update offset data = (w, .error .notInitialized)
  finalize : w.finalize = (w, .error .notInitialized)

theorem uninitialized_of_session (h : w.session = none) : w.Uninitialized := by
  refine ⟨h, ?_, ?_⟩
  · intro offset data
    unfold Writer.update
    rw [h]
  · unfold Writer.finalize
    rw [h]

theorem uninitialized_init {f : InitFault} (h : (w.init l).2 = .error f) :
    (w.init l).1.Uninitialized := by
  apply uninitialized_of_session
  unfold init at h ⊢
  split at h
  · cases h
  · rfl

theorem session_finalize (w : Writer) : w.finalize.1.session = none := by
  unfold Writer.finalize
  cases hsession : w.session with
  | none => exact hsession
  | some s =>
    dsimp only
    cases s.builder with
    | none => rfl
    | some b =>
      dsimp only
      cases b.build with
      | error e => rfl
      | ok tree => rfl

/-! ## Calls in a row -/

/-- Offers data call by call, whether or not a call is taken. -/
def offer (w : Writer) (calls : List (Nat × ByteArray)) : Writer :=
  calls.foldl (fun w call => (w.update call.1 call.2).1) w

theorem offer_concat (w : Writer) (calls : List (Nat × ByteArray)) (call : Nat × ByteArray) :
    w.offer (calls ++ [call]) = ((w.offer calls).update call.1 call.2).1 := by
  unfold offer
  rw [List.foldl_append]
  rfl

@[simp] theorem memory_offer (calls : List (Nat × ByteArray)) :
    ∀ w : Writer, (w.offer calls).memory = w.memory := by
  induction calls with
  | nil => exact fun w => rfl
  | cons call rest ih => exact fun w => (ih _).trans (w.memory_update call.1 call.2)

theorem Streams.takeNext (h : w.Streams l contents) (call : Nat × ByteArray) :
    (w.update call.1 call.2).1.Streams l (takeNext contents call) := by
  have hstep := h.update_eq call.1 call.2
  unfold Verity.takeNext
  split
  · rename_i hnext
    rw [if_pos hnext] at hstep
    exact hstep.2
  · rename_i hnext
    rw [if_neg hnext] at hstep
    rw [hstep]
    exact h

theorem Streams.offer (calls : List (Nat × ByteArray)) :
    ∀ {w : Writer} {contents : ByteArray}, w.Streams l contents →
      (w.offer calls).Streams l (calls.foldl Verity.takeNext contents) := by
  -- by induction on the calls, from whatever data has been taken before
  induction calls with
  | nil =>
    intro w contents h
    exact h
  | cons call rest ih =>
    intro w contents h
    exact ih (h.takeNext call)

/-! ## Finalizing -/

theorem Streams.tree?_eq_none_iff (h : w.Streams l contents) : l.tree? contents = none ↔
    l.hashTreeSize = 0 ∨ contents.size < l.hashTreeDataOffset + l.hashTreeDataSize := by
  constructor
  · intro hnone
    by_contra hsome
    obtain ⟨htree, hcovers⟩ := not_or.mp hsome
    obtain ⟨a, format, -, -, -, -, hbuilt⟩ := h.exists_tree htree (Nat.not_lt.mp hcovers)
    rw [hnone] at hbuilt
    cases hbuilt
  · exact fun hnone => if_pos hnone

theorem Streams.treeOver (h : w.Streams l contents) {tree : HashTree.Tree}
    (hbuilt : l.tree? contents = some tree) : l.TreeOver (l.treeData contents) tree := by
  have hsome : ¬ (l.hashTreeSize = 0 ∨
      contents.size < l.hashTreeDataOffset + l.hashTreeDataSize) := by
    rw [← h.tree?_eq_none_iff, hbuilt]
    exact nofun
  obtain ⟨htree, hcovers⟩ := not_or.mp hsome
  replace hcovers := Nat.not_lt.mp hcovers
  obtain ⟨a, format, hname, hformat, haligned, -, htree?⟩ := h.exists_tree htree hcovers
  cases hbuilt.symm.trans htree?
  obtain ⟨depth, level, hmade⟩ := HashTree.Format.exists_madeOf_ofAlgorithm hformat
    (by rw [size_treeData_of_le hcovers]; exact haligned)
  exact ⟨a, depth, level, hname, hmade⟩

/-- The ways in which finalizing can go. -/
theorem Streams.finalize_cases (h : w.Streams l contents) :
    (l.hashTreeSize ≠ 0 ∧ contents.size < l.hashTreeDataOffset + l.hashTreeDataSize) ∧
        w.finalize.2 =
          .error (.incompleteData (l.treeData contents).size l.hashTreeDataSize) ∨
      ¬ (l.hashTreeSize ≠ 0 ∧ contents.size < l.hashTreeDataOffset + l.hashTreeDataSize) ∧
        (w.finalize.2 = .error .memoryAllocationFailure ∧ l.fecSize ≠ 0 ∧
            w.memory < (codeWordLength - l.fecRoots) * l.blockSize ∨
          ∃ fec, w.finalize.2 =
            .ok ⟨(l.tree? contents).map fun tree => (l.hashTreeOffset, tree.bytes), fec⟩) := by
  obtain ⟨fec, hfec, hfinal⟩ := h.finalize_eq
  rw [hfinal]
  split
  · rename_i hmissing
    exact Or.inl ⟨hmissing, rfl⟩
  · rename_i hcomplete
    refine Or.inr ⟨hcomplete, ?_⟩
    rcases heldFec_cases hfec w.memory with ⟨hheld, -⟩ | ⟨hheld, hlimit⟩
    · rw [hheld]
      exact Or.inr ⟨fec, rfl⟩
    · rw [hheld]
      exact Or.inl ⟨rfl, hlimit⟩

/-- Finalizing after all of the tree's data, level by level; only memory can be missing. -/
theorem Streams.finalize_complete (h : w.Streams l contents)
    (hcomplete : ¬ (l.hashTreeSize ≠ 0 ∧
      contents.size < l.hashTreeDataOffset + l.hashTreeDataSize)) :
    match w.finalize.2 with
    | .error e => e = .memoryAllocationFailure ∧ l.fecSize ≠ 0 ∧
        w.memory < (codeWordLength - l.fecRoots) * l.blockSize
    | .ok f =>
      if l.hashTreeSize = 0 then f.tree = none
      else ∃ tree, f.tree = some (l.hashTreeOffset, tree.bytes) ∧
        l.TreeOver (l.treeData contents) tree := by
  rcases h.finalize_cases with ⟨hmissing, -⟩ | ⟨-, ⟨hfinal, hlimit⟩ | ⟨fec, hfinal⟩⟩
  · exact absurd hmissing hcomplete
  · rw [hfinal]
    exact ⟨rfl, hlimit⟩
  · rw [hfinal]
    show if l.hashTreeSize = 0 then
        (l.tree? contents).map (fun tree => (l.hashTreeOffset, tree.bytes)) = none
      else ∃ tree, (l.tree? contents).map _ = some _ ∧ _
    by_cases htree : l.hashTreeSize = 0
    · rw [if_pos htree, h.tree?_eq_none_iff.mpr (Or.inl htree)]
      rfl
    · rw [if_neg htree]
      cases hbuilt : l.tree? contents with
      | none =>
        exact absurd (h.tree?_eq_none_iff.mp hbuilt)
          (not_or_intro htree fun hmissing => hcomplete ⟨htree, hmissing⟩)
      | some tree => exact ⟨tree, rfl, h.treeOver hbuilt⟩

theorem Streams.finalize_incomplete_iff (h : w.Streams l contents) :
    (∃ hashed expected, w.finalize.2 = .error (.incompleteData hashed expected)) ↔
      l.hashTreeSize ≠ 0 ∧ contents.size < l.hashTreeDataOffset + l.hashTreeDataSize := by
  rcases h.finalize_cases with ⟨hmissing, hfinal⟩ | ⟨hcomplete, ⟨hfinal, -⟩ | ⟨fec, hfinal⟩⟩
  · exact iff_of_true ⟨_, _, hfinal⟩ hmissing
  · rw [hfinal]
    exact iff_of_false nofun hcomplete
  · rw [hfinal]
    exact iff_of_false nofun hcomplete

/-- After an accepted layout and any calls: the next call is taken exactly if it continues the data
    taken and its end is an offset, with room in the tree's builder; any other call is refused and
    changes nothing.  Finalizing finds the data incomplete exactly if there is a tree and the data
    taken ends before the tree's; otherwise the tree is the one over just its part of the data, and
    only memory can be missing.  After finalizing, and after a layout that is not accepted, there is
    no partition. -/
theorem update_protocol (w : Writer) (l : Layout) :
    ((w.init l).2 = .ok () → ∀ calls : List (Nat × ByteArray),
      (∀ offset data,
        if offset = (takenOf calls).size ∧ offset + data.size < wordLimit then
          ((w.init l).1.offer calls).update offset data =
              ((w.init l).1.offer (calls ++ [(offset, data)]), .ok ()) ∧
            takenOf (calls ++ [(offset, data)]) = takenOf calls ++ data ∧
            ∀ s b, ((w.init l).1.offer calls).session = some s → s.builder = some b →
              ∃ b', b.update (Session.covered l offset data) = .ok b'
        else
          ((w.init l).1.offer calls).update offset data =
              ((w.init l).1.offer calls, .error (refusal (takenOf calls).size offset)) ∧
            takenOf (calls ++ [(offset, data)]) = takenOf calls) ∧
      ((∃ hashed expected, ((w.init l).1.offer calls).finalize.2 =
          .error (.incompleteData hashed expected)) ↔
        l.hashTreeSize ≠ 0 ∧
          (takenOf calls).size < l.hashTreeDataOffset + l.hashTreeDataSize) ∧
      (¬ (l.hashTreeSize ≠ 0 ∧
          (takenOf calls).size < l.hashTreeDataOffset + l.hashTreeDataSize) →
        match ((w.init l).1.offer calls).finalize.2 with
        | .error e => e = .memoryAllocationFailure ∧ l.fecSize ≠ 0 ∧
            w.memory < (codeWordLength - l.fecRoots) * l.blockSize
        | .ok f =>
          if l.hashTreeSize = 0 then f.tree = none
          else ∃ tree, f.tree = some (l.hashTreeOffset, tree.bytes) ∧
            l.TreeOver (l.treeData (takenOf calls)) tree)) ∧
    (∀ f, (w.init l).2 = .error f → (w.init l).1.Uninitialized) ∧
    w.finalize.1.Uninitialized := by
  refine ⟨?_, fun f => uninitialized_init, uninitialized_of_session (session_finalize w)⟩
  intro hinit calls
  -- from here on all that counts is which data has been taken
  have hstreams : ((w.init l).1.offer calls).Streams l (takenOf calls) :=
    (streams_init hinit).offer calls
  have hcomplete := hstreams.finalize_complete
  rw [memory_offer, memory_init] at hcomplete
  refine ⟨?_, hstreams.finalize_incomplete_iff, hcomplete⟩
  intro offset data
  have hstep := hstreams.update_eq offset data
  rw [takenOf_concat, offer_concat, takeNext]
  by_cases hnext : offset = (takenOf calls).size ∧ offset + data.size < wordLimit
  · rw [if_pos hnext] at hstep ⊢
    refine ⟨Prod.ext rfl hstep.1, if_pos hnext, ?_⟩
    intro s b hsession hbuilder
    obtain ⟨s', hsession', hlayout, -, hfed⟩ := hstreams
    cases hsession.symm.trans hsession'
    rw [hnext.1]
    exact Streams.builder_update hfed hlayout hbuilder data
  · rw [if_neg hnext] at hstep ⊢
    exact ⟨hstep, if_neg hnext⟩

/-- A block of data ten bytes into the partition, with its tree behind it. -/
def shiftedLayout : Layout :=
  { blockLayout with
    hashTreeDataOffset := 10, hashTreeOffset := 128, fecDataSize := 0, fecSize := 0, fecRoots := 0 }

/-- Calls that begin before the block and end behind it, with one in between that goes back. -/
def shiftedCalls : List (Nat × ByteArray) :=
  [(0, Bytes.zeros 40), (7, Bytes.zeros 5), (40, Bytes.zeros 60)]

/-- The call that goes back is refused, and the tree is the one over the block. -/
theorem update_protocol_shifted :
    (fresh.init shiftedLayout).2 = .ok () ∧
    ((fresh.init shiftedLayout).1.offer [(0, Bytes.zeros 40)]).update 7 (Bytes.zeros 5) =
      ((fresh.init shiftedLayout).1.offer [(0, Bytes.zeros 40)],
        .error (.nonSequentialUpdate 7 40)) ∧
    ∃ f tree, ((fresh.init shiftedLayout).1.offer shiftedCalls).finalize.2 = .ok f ∧
      f.tree = some (128, tree.bytes) ∧
      shiftedLayout.TreeOver (shiftedLayout.treeData (takenOf shiftedCalls)) tree := by
  have hinit : (fresh.init shiftedLayout).2 = .ok () := eq_ok_of_isOk (by decide +kernel)
  have hback := ((update_protocol fresh shiftedLayout).1 hinit [(0, Bytes.zeros 40)]).1 7
    (Bytes.zeros 5)
  rw [if_neg (by decide)] at hback
  refine ⟨hinit, hback.1, ?_⟩
  have hfinal := ((update_protocol fresh shiftedLayout).1 hinit shiftedCalls).2.2 (by decide)
  cases houtcome : ((fresh.init shiftedLayout).1.offer shiftedCalls).finalize.2 with
  | error e =>
    rw [houtcome] at hfinal
    exact absurd rfl hfinal.2.1
  | ok f =>
    rw [houtcome] at hfinal
    dsimp only at hfinal
    rw [if_neg (by decide)] at hfinal
    obtain ⟨tree, htree, hover⟩ := hfinal
    exact ⟨f, tree, rfl, htree, hover⟩

end Writer

end SlotVerify.Verity
